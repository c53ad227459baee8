import SymbolIndex.KeyedList

/-!
# Debouncing

Items wait under their keys until the key has been quiet for some time; a new item of a key takes
the place of the one that waits. The operations answer the items that are to be handled.

A worker looks for what is due first, sleeps until then, and takes out all that is due. Then it
looks again, as it does when an item was scheduled while it slept. It ends when the debouncer is
stopped. Time is a number of milliseconds.
-/

namespace SymbolIndex

/-- An item and the time at which it is handled. -/
structure Delayed (α : Type) where
  item : α
  due : Nat
  deriving Repr, DecidableEq

/-- Where the worker is in its loop. It is about to look for what is due first, or it waits until
then, for ever if there is nothing, or its loop has ended. -/
inductive Worker where
  | looking
  | waiting (due? : Option Nat)
  | ended
  deriving Repr, DecidableEq

/-- What ends the waiting of the worker: the debouncer was stopped, an item was scheduled, or the
sleep is over. -/
inductive Signal where
  | stopped
  | scheduled
  | slept
  deriving Repr, DecidableEq

/-- What happens between the calls: the worker looks, or goes on at a signal, or time passes. -/
inductive Move where
  | look
  | wake (signal : Signal)
  | pass (duration : Nat)
  deriving Repr, DecidableEq

/-- A timer says when a sleep until some time ends. -/
structure Timer where
  ends : Nat → Nat

/-- The timer whose sleeps end on time. -/
def Timer.punctual : Timer :=
  ⟨id⟩

/-- The items that wait, in the order in which they were scheduled, and the worker, which is there
only if the debouncer is running at first. Else items are handled only when they are flushed. -/
structure Debouncer (α : Type) where
  wait : Nat
  now : Nat := 0
  isRunning : Bool := true
  pending : KeyedList (Delayed α) := []
  /-- An item was scheduled, and the worker has not gone on at this yet. -/
  isNotified : Bool := false
  worker : Worker := if isRunning then .looking else .ended
  deriving Repr

namespace Debouncer

variable {α : Type}

/-- What a call answers may be left aside. -/
instance : Coe (Bool × Debouncer α) (Debouncer α) :=
  ⟨Prod.snd⟩

/-! ### Calls -/

/-- Lets an item wait in the place of the one under its key. -/
def schedule (debouncer : Debouncer α) (key : String) (item : α) : Debouncer α :=
  let entry : Delayed α := ⟨item, debouncer.now + debouncer.wait⟩
  { debouncer with
    pending := debouncer.pending.remove key ++ [(key, entry)], isNotified := true }

def pending? (debouncer : Debouncer α) (key : String) : Option α :=
  (debouncer.pending.value? key).map (·.item)

def isPending (debouncer : Debouncer α) (key : String) : Bool :=
  (debouncer.pending? key).isSome

/-- Drops the item under a key, and answers whether there was one. -/
def cancel (debouncer : Debouncer α) (key : String) : Bool × Debouncer α :=
  (debouncer.isPending key, { debouncer with pending := debouncer.pending.remove key })

/-- Takes out the item under a key. -/
def flush (debouncer : Debouncer α) (key : String) : Option α × Debouncer α :=
  (debouncer.pending? key, debouncer.cancel key)

/-- Takes out all items. -/
def flushAll (debouncer : Debouncer α) : List α × Debouncer α :=
  (debouncer.pending.map (·.2.item), { debouncer with pending := [] })

/-- From now on items are handled only when they are flushed. -/
def stop (debouncer : Debouncer α) : Debouncer α :=
  { debouncer with isRunning := false }

/-! ### The worker -/

/-- When the first item is due. -/
def nextDue? (debouncer : Debouncer α) : Option Nat :=
  (debouncer.pending.map (·.2.due)).min?

/-- Takes out what is due now, each item with its key. -/
def takeDue (debouncer : Debouncer α) : List (String × α) × Debouncer α :=
  let (due, later) := debouncer.pending.partition fun entry => entry.2.due ≤ debouncer.now
  (due.map fun entry => (entry.1, entry.2.item), { debouncer with pending := later })

/-- Looks for what is due first, to wait until then. -/
def look (debouncer : Debouncer α) : Debouncer α :=
  { debouncer with worker := .waiting debouncer.nextDue? }

/-- A signal has come to the worker while it waits. -/
def hasCome (timer : Timer) (debouncer : Debouncer α) (due? : Option Nat) : Signal → Bool
  | .stopped => !debouncer.isRunning
  | .scheduled => debouncer.isNotified
  | .slept => due?.any fun due => timer.ends due ≤ debouncer.now

/-- Goes on at a signal. When the worker has slept, it takes out what is due. -/
def wake (debouncer : Debouncer α) : Signal → List α × Debouncer α
  | .stopped => ([], { debouncer with worker := .ended })
  | .scheduled => ([], { debouncer with isNotified := false, worker := .looking })
  | .slept =>
    let (due, debouncer) := debouncer.takeDue
    (due.map (·.2), { debouncer with worker := .looking })

def move (debouncer : Debouncer α) : Move → List α × Debouncer α
  | .look => ([], debouncer.look)
  | .wake signal => debouncer.wake signal
  | .pass duration => ([], { debouncer with now := debouncer.now + duration })

/-! ### Time -/

/-- Time passes, until some time at most. -/
def passUntil? (debouncer : Debouncer α) (limit : Nat) : Option Move :=
  if debouncer.now < limit then some (.pass (limit - debouncer.now)) else none

/-- What happens next until some time. The worker goes on as soon as it can; where several signals
have come to it, it may go on at any of them. -/
def next? (timer : Timer) (limit : Nat) (debouncer : Debouncer α) : Option Move :=
  match debouncer.worker with
  | .looking => some .look
  | .waiting due? =>
    match [Signal.stopped, .scheduled, .slept].find? (debouncer.hasCome timer due?) with
    | some signal => some (.wake signal)
    | none => debouncer.passUntil? ((due?.map timer.ends).elim limit (min limit))
  | .ended => debouncer.passUntil? limit

/-- Makes up to so many moves until some time, and takes out the items that the worker does. -/
def moves (timer : Timer) (limit : Nat) : Nat → Debouncer α → List α × Debouncer α
  | 0, debouncer => ([], debouncer)
  | count + 1, debouncer =>
    match debouncer.next? timer limit with
    | none => ([], debouncer)
    | some move =>
      let (items, debouncer) := debouncer.move move
      let (more, debouncer) := moves timer limit count debouncer
      (items ++ more, debouncer)

/-- Lets time pass by a timer, while the worker does what is due. -/
def advanceBy (timer : Timer) (debouncer : Debouncer α) (duration : Nat) :
    List α × Debouncer α :=
  -- For each time at which items are due the worker wakes and looks, and time passes once. At first
  -- it may have to see what was scheduled, and to sleep until a time when nothing is due any more.
  debouncer.moves timer (debouncer.now + duration) (3 * debouncer.pending.length + 4)

/-- Lets time pass and takes out the items that have become due. -/
def advance (debouncer : Debouncer α) (duration : Nat) : List α × Debouncer α :=
  debouncer.advanceBy .punctual duration

end Debouncer

end SymbolIndex
