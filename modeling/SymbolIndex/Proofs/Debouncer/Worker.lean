import SymbolIndex.Proofs.Debouncer

/-!
# The worker of a debouncer

Calls may come at any time, and the worker may go on at any signal that has come to it.  Time passes
only while the worker has nothing to do, and not beyond the end of its sleep; this is how a runtime
moves a clock that waits for its tasks.  The sleeps of a timer end no earlier than they should, and
within some latency.

Under these rules the worker never sleeps longer than until the first item is due, unless it is
about to be woken.  So no item waits longer than until it is due, but for the latency
(`Attentive`).  Nor can the worker hold up time: after finitely many moves it has nothing to do
before any later time (`settled_moves`).
-/

namespace SymbolIndex

variable {α : Type}

/-- The sleeps of a timer end no earlier than they should, and within a latency. -/
structure Timer.IsTimely (timer : Timer) (latency : Nat) : Prop where
  never_early : ∀ due, due ≤ timer.ends due
  in_time : ∀ due, timer.ends due ≤ due + latency

theorem Timer.isTimely_punctual : punctual.IsTimely 0 where
  never_early := Nat.le_refl
  in_time := Nat.le_refl

namespace Debouncer

/-! ## Runs with a worker -/

/-- A move is possible. -/
def allows (timer : Timer) (debouncer : Debouncer α) : Move → Bool
  | .look => debouncer.worker = .looking
  | .wake signal =>
    match debouncer.worker with
    | .waiting due? => debouncer.hasCome timer due? signal
    | .looking | .ended => false
  | .pass duration =>
    match debouncer.worker with
    | .looking => false
    | .waiting due? =>
      !debouncer.hasCome timer due? .stopped && !debouncer.hasCome timer due? .scheduled &&
        due?.all fun due => debouncer.now + duration ≤ timer.ends due
    | .ended => true

/-- An event is possible. Calls always are. -/
def allowsEvent (timer : Timer) (debouncer : Debouncer α) : Event α → Bool
  | .move move => debouncer.allows timer move
  | .schedule _ _ | .flush _ | .flushAll | .cancel _ => true

/-- One event after the other is possible. -/
def allowsAll (timer : Timer) : Debouncer α → List (Event α) → Bool
  | _, [] => true
  | debouncer, event :: rest =>
    debouncer.allowsEvent timer event && (debouncer.step event).2.allowsAll timer rest

/-- The events are those of a run of a debouncer with its worker. -/
def IsRun (timer : Timer) (wait : Nat) (events : List (Event α)) : Prop :=
  allowsAll timer { wait := wait } events = true

/-- The worker waits, and no signal has come, or it has ended. -/
def isIdle (timer : Timer) (debouncer : Debouncer α) : Bool :=
  match debouncer.worker with
  | .looking => false
  | .waiting due? => [Signal.stopped, .scheduled, .slept].all (!debouncer.hasCome timer due? ·)
  | .ended => true

variable {timer : Timer} {latency : Nat} {debouncer : Debouncer α}

theorem allowsAll_append (debouncer : Debouncer α) (first second : List (Event α)) :
    debouncer.allowsAll timer (first ++ second) =
      (debouncer.allowsAll timer first && (debouncer.stepAll first).2.allowsAll timer second) := by
  induction first generalizing debouncer with
  | nil => rfl
  | cons event rest ih => rw [List.cons_append, allowsAll, ih, allowsAll, stepAll, Bool.and_assoc]

theorem isRun_append {wait : Nat} {first second : List (Event α)} :
    IsRun timer wait (first ++ second) ↔
      IsRun timer wait first ∧ (after wait first).allowsAll timer second = true := by
  rw [IsRun, allowsAll_append, Bool.and_eq_true]
  rfl

/-- The first events of a run are a run. -/
theorem IsRun.take {wait : Nat} {events : List (Event α)} (hrun : IsRun timer wait events)
    (count : Nat) : IsRun timer wait (events.take count) := by
  rw [← List.take_append_drop count events] at hrun
  exact (isRun_append.1 hrun).1

/-! ## No item is kept waiting -/

theorem le_of_nextDue? {due : Nat} (hnext : debouncer.nextDue? = some due)
    {entry : String × Delayed α} (hentry : entry ∈ debouncer.pending) : due ≤ entry.2.due :=
  (List.min?_eq_some_iff.1 hnext).2 _ (List.mem_map_of_mem hentry)

theorem exists_nextDue? {entry : String × Delayed α} (hentry : entry ∈ debouncer.pending) :
    ∃ due, debouncer.nextDue? = some due ∧ due ≤ entry.2.due := by
  cases hnext : debouncer.nextDue? with
  | none =>
    have hempty := List.min?_eq_none_iff.1 hnext
    rw [List.map_eq_nil_iff.1 hempty] at hentry
    cases hentry
  | some due => exact ⟨due, rfl, le_of_nextDue? hnext hentry⟩

/-- The worker is there. While it sleeps and is not notified, each item is due when the sleep ends
or later. No item is due longer than the latency. -/
structure Attentive (timer : Timer) (latency : Nat) (debouncer : Debouncer α) : Prop where
  isRunning : debouncer.isRunning = true
  worker_ne_ended : debouncer.worker ≠ .ended
  heeds : ∀ due?, debouncer.worker = .waiting due? → debouncer.isNotified = false →
    ∀ entry ∈ debouncer.pending, ∃ due, due? = some due ∧ due ≤ entry.2.due
  in_time : ∀ entry ∈ debouncer.pending, debouncer.now ≤ entry.2.due + latency

namespace Attentive

theorem start (timer : Timer) (latency wait : Nat) :
    Attentive timer latency ({ wait := wait } : Debouncer α) where
  isRunning := rfl
  worker_ne_ended := nofun
  heeds := nofun
  in_time _ hentry := absurd hentry List.not_mem_nil

/-- Fewer items. -/
theorem of_sublist (hattentive : debouncer.Attentive timer latency)
    {pending : KeyedList (Delayed α)} (hsublist : pending.Sublist debouncer.pending) :
    Attentive timer latency { debouncer with pending := pending } where
  isRunning := hattentive.isRunning
  worker_ne_ended := hattentive.worker_ne_ended
  heeds due? hwaiting hquiet entry hentry :=
    hattentive.heeds due? hwaiting hquiet entry (hsublist.subset hentry)
  in_time entry hentry := hattentive.in_time entry (hsublist.subset hentry)

/-- A new item is not due before the old one, and the worker is told of it. -/
theorem schedule (hattentive : debouncer.Attentive timer latency) (key : String) (item : α) :
    (debouncer.schedule key item).Attentive timer latency where
  isRunning := hattentive.isRunning
  worker_ne_ended := hattentive.worker_ne_ended
  heeds _ _ hquiet := nomatch hquiet
  in_time entry hentry := by
    rcases List.mem_append.1 hentry with hold | hnew
    · exact hattentive.in_time entry (List.mem_of_mem_filter hold)
    · rw [List.mem_singleton.1 hnew]
      exact Nat.le_trans (Nat.le_add_right _ _) (Nat.le_add_right _ _)

theorem look (hattentive : debouncer.Attentive timer latency) :
    debouncer.look.Attentive timer latency where
  isRunning := hattentive.isRunning
  worker_ne_ended := nofun
  heeds due? hwaiting _ entry hentry := by
    cases hwaiting
    exact exists_nextDue? hentry
  in_time := hattentive.in_time

/-- While the worker looks, no sleep is too long. -/
theorem looking (hattentive : debouncer.Attentive timer latency) (isNotified : Bool) :
    Attentive timer latency { debouncer with isNotified := isNotified, worker := .looking } where
  isRunning := hattentive.isRunning
  worker_ne_ended := nofun
  heeds := nofun
  in_time := hattentive.in_time

/-- Going on at a signal that has come keeps the worker attentive. -/
theorem wake (hattentive : debouncer.Attentive timer latency) {signal : Signal}
    (hallowed : debouncer.allows timer (.wake signal) = true) :
    (debouncer.wake signal).2.Attentive timer latency := by
  cases signal with
  | stopped =>
    rw [allows] at hallowed
    split at hallowed
    · rw [hasCome, hattentive.isRunning] at hallowed
      cases hallowed
    · cases hallowed
    · cases hallowed
  | scheduled => exact hattentive.looking false
  | slept =>
    rw [wake_slept_eq]
    exact (hattentive.of_sublist List.filter_sublist).looking debouncer.isNotified

/-- Time passes at most until the end of a sleep, which is not too long. -/
theorem pass (htimer : timer.IsTimely latency) (hattentive : debouncer.Attentive timer latency)
    {duration : Nat} (hallowed : debouncer.allows timer (.pass duration) = true) :
    Attentive timer latency { debouncer with now := debouncer.now + duration } where
  isRunning := hattentive.isRunning
  worker_ne_ended := hattentive.worker_ne_ended
  heeds := hattentive.heeds
  in_time entry hentry := by
    rw [allows] at hallowed
    split at hallowed
    · cases hallowed
    · rename_i due? hwaiting
      simp only [Bool.and_eq_true, Bool.not_eq_true'] at hallowed
      obtain ⟨⟨-, hquiet⟩, hlimit⟩ := hallowed
      obtain ⟨due, rfl, hdue⟩ := hattentive.heeds due? hwaiting hquiet entry hentry
      calc debouncer.now + duration ≤ timer.ends due := of_decide_eq_true hlimit
        _ ≤ due + latency := htimer.in_time due
        _ ≤ entry.2.due + latency := Nat.add_le_add_right hdue latency
    · exact absurd ‹_› hattentive.worker_ne_ended

/-- An event that is possible keeps the worker attentive. -/
theorem step (htimer : timer.IsTimely latency) (hattentive : debouncer.Attentive timer latency)
    {event : Event α} (hallowed : debouncer.allowsEvent timer event = true) :
    (debouncer.step event).2.Attentive timer latency := by
  cases event with
  | schedule key item => exact hattentive.schedule key item
  | flush key | cancel key => exact hattentive.of_sublist List.filter_sublist
  | flushAll => exact hattentive.of_sublist (List.nil_sublist _)
  | move move =>
    cases move with
    | look => exact hattentive.look
    | wake signal => exact hattentive.wake hallowed
    | pass duration => exact hattentive.pass htimer hallowed

/-- Events that are possible keep the worker attentive. -/
theorem stepAll (htimer : timer.IsTimely latency) (hattentive : debouncer.Attentive timer latency)
    {events : List (Event α)} (hallowed : debouncer.allowsAll timer events = true) :
    (debouncer.stepAll events).2.Attentive timer latency := by
  induction events generalizing debouncer with
  | nil => exact hattentive
  | cons event rest ih =>
    obtain ⟨hfirst, hrest⟩ := Bool.and_eq_true_iff.1 hallowed
    exact ih (hattentive.step htimer hfirst) hrest

/-- A worker with nothing to do leaves only what is due later. -/
theorem lt_of_isIdle (htimer : timer.IsTimely latency)
    (hattentive : debouncer.Attentive timer latency) (hidle : debouncer.isIdle timer = true)
    {entry : String × Delayed α} (hentry : entry ∈ debouncer.pending) :
    debouncer.now < entry.2.due + latency := by
  rw [isIdle] at hidle
  split at hidle
  · cases hidle
  · rename_i due? hwaiting
    simp only [List.all_cons, List.all_nil, Bool.and_eq_true, Bool.not_eq_true'] at hidle
    obtain ⟨-, hquiet, hasleep, -⟩ := hidle
    obtain ⟨due, rfl, hdue⟩ := hattentive.heeds due? hwaiting hquiet entry hentry
    have hends : debouncer.now < timer.ends due := Nat.not_le.1 (of_decide_eq_false hasleep)
    calc debouncer.now < timer.ends due := hends
      _ ≤ due + latency := htimer.in_time due
      _ ≤ entry.2.due + latency := Nat.add_le_add_right hdue latency
  · exact absurd ‹_› hattentive.worker_ne_ended

end Attentive

theorem IsRun.attentive (htimer : timer.IsTimely latency) {wait : Nat} {events : List (Event α)}
    (hrun : IsRun timer wait events) : (after wait events).Attentive timer latency :=
  (Attentive.start timer latency wait).stepAll htimer hrun

/-! ## Moves until some time -/

section

variable {limit : Nat}

theorem passUntil?_eq_some {move : Move} (hnext : debouncer.passUntil? limit = some move) :
    debouncer.now < limit ∧ move = .pass (limit - debouncer.now) := by
  rw [passUntil?] at hnext
  split at hnext
  · exact ⟨‹_›, (Option.some.inj hnext).symm⟩
  · cases hnext

/-- Which move comes next until some time, and where the worker is then. -/
inductive HappensNext (timer : Timer) (limit : Nat) (debouncer : Debouncer α) : Move → Prop
  | look (hlooking : debouncer.worker = .looking) : HappensNext timer limit debouncer .look
  | wake (due? : Option Nat) (signal : Signal) (hwaiting : debouncer.worker = .waiting due?)
      (hcome : debouncer.hasCome timer due? signal = true)
      (hquiet : signal = .slept → debouncer.isNotified = false) :
      HappensNext timer limit debouncer (.wake signal)
  | sleep (due? : Option Nat) (bound : Nat) (hwaiting : debouncer.worker = .waiting due?)
      (hnone : ∀ signal, debouncer.hasCome timer due? signal = false)
      (hbound : bound = (due?.map timer.ends).elim limit (min limit))
      (hlater : debouncer.now < bound) :
      HappensNext timer limit debouncer (.pass (bound - debouncer.now))
  | rest (hended : debouncer.worker = .ended) (hlater : debouncer.now < limit) :
      HappensNext timer limit debouncer (.pass (limit - debouncer.now))

theorem hasCome_eq_false {due? : Option Nat}
    (hfound : [Signal.stopped, .scheduled, .slept].find? (debouncer.hasCome timer due?) = none)
    (signal : Signal) : debouncer.hasCome timer due? signal = false := by
  have hnone := List.find?_eq_none.1 hfound signal
  cases signal <;> simpa using hnone

theorem happensNext_of_next? {move : Move} (hnext : debouncer.next? timer limit = some move) :
    HappensNext timer limit debouncer move := by
  rw [next?] at hnext
  split at hnext
  · cases hnext
    exact .look ‹_›
  · rename_i due? hwaiting
    split at hnext
    · rename_i signal hfound
      cases hnext
      refine .wake due? signal hwaiting (List.find?_some hfound) ?_
      -- A worker that was notified would have gone on at this.
      rintro rfl
      cases hquiet : debouncer.isNotified with
      | false => rfl
      | true => cases hgoes : debouncer.isRunning <;> simp [hasCome, hquiet, hgoes] at hfound
    · rename_i hfound
      obtain ⟨hlater, rfl⟩ := passUntil?_eq_some hnext
      exact .sleep due? _ hwaiting (hasCome_eq_false hfound) rfl hlater
  · obtain ⟨hlater, rfl⟩ := passUntil?_eq_some hnext
    exact .rest ‹_› hlater

/-- What happens next is possible. -/
theorem allows_of_next? {move : Move} (hnext : debouncer.next? timer limit = some move) :
    debouncer.allows timer move = true := by
  cases happensNext_of_next? hnext with
  | look hlooking => exact decide_eq_true hlooking
  | wake due? signal hwaiting hcome _ =>
    rw [allows, hwaiting]
    exact hcome
  | sleep due? bound hwaiting hnone hbound hlater =>
    simp only [allows, hwaiting, hnone, Bool.not_false, Bool.true_and]
    cases due? with
    | none => rfl
    | some due =>
      have hends : bound ≤ timer.ends due := hbound ▸ Nat.min_le_right _ _
      exact decide_eq_true (by omega)
  | rest hended _ => rw [allows, hended]

/-- No move until some time leads beyond it. -/
theorem now_move_le {move : Move} (hnext : debouncer.next? timer limit = some move)
    (hnow : debouncer.now ≤ limit) : (debouncer.move move).2.now ≤ limit := by
  cases happensNext_of_next? hnext with
  | look _ => exact hnow
  | wake due? signal _ _ _ => cases signal <;> exact hnow
  | sleep due? bound _ _ hbound hlater =>
    have hlimit : bound ≤ limit := by
      cases due? with
      | none => exact Nat.le_of_eq hbound
      | some due => exact hbound ▸ Nat.min_le_left _ _
    change debouncer.now + (bound - debouncer.now) ≤ limit
    omega
  | rest _ hlater =>
    change debouncer.now + (limit - debouncer.now) ≤ limit
    omega

/-- With nothing left to happen until some time, it is this time, and the worker has nothing to
do. -/
theorem isIdle_of_next?_eq_none (hnext : debouncer.next? timer limit = none)
    (hnow : debouncer.now ≤ limit) :
    debouncer.now = limit ∧ debouncer.isIdle timer = true := by
  have hpassed : ∀ {bound : Nat}, debouncer.passUntil? bound = none → bound ≤ debouncer.now := by
    intro bound hnone
    rw [passUntil?] at hnone
    split at hnone
    · cases hnone
    · exact Nat.not_lt.1 ‹_›
  rw [next?] at hnext
  split at hnext
  · cases hnext
  · rename_i due? hwaiting
    split at hnext
    · cases hnext
    · rename_i hnone
      have hbound := hpassed hnext
      have hsignals := hasCome_eq_false hnone
      constructor
      · cases due? with
        | none => exact Nat.le_antisymm hnow hbound
        | some due =>
          have hasleep : debouncer.now < timer.ends due :=
            Nat.not_le.1 (of_decide_eq_false (hsignals .slept))
          change min limit (timer.ends due) ≤ debouncer.now at hbound
          omega
      · simp [isIdle, hwaiting, hsignals]
  · rename_i hended
    exact ⟨Nat.le_antisymm hnow (hpassed hnext), by rw [isIdle, hended]⟩

/-- The moves are those of a run. -/
theorem exists_moves (timer : Timer) (limit count : Nat) (debouncer : Debouncer α) :
    ∃ made : List Move, debouncer.allowsAll timer (made.map .move) = true ∧
      debouncer.stepAll (made.map .move) = moves timer limit count debouncer := by
  induction count generalizing debouncer with
  | zero => exact ⟨[], rfl, rfl⟩
  | succ count ih =>
    rw [moves]
    split
    · exact ⟨[], rfl, rfl⟩
    · rename_i move hnext
      obtain ⟨made, hallowed, hmade⟩ := ih (debouncer.move move).2
      refine ⟨move :: made, ?_, ?_⟩
      · rw [List.map_cons, allowsAll, Bool.and_eq_true]
        exact ⟨allows_of_next? hnext, hallowed⟩
      · have hstep : debouncer.step (.move move) = debouncer.move move := rfl
        rw [List.map_cons, stepAll, hstep, hmade]

theorem now_moves_le (count : Nat) (hnow : debouncer.now ≤ limit) :
    (moves timer limit count debouncer).2.now ≤ limit := by
  induction count generalizing debouncer with
  | zero => exact hnow
  | succ count ih =>
    rw [moves]
    split
    · exact hnow
    · exact ih (now_move_le ‹_› hnow)

/-! ## Finitely many moves -/

/-- How many moves a debouncer makes at most until some time. Each item costs three: time passes
until it is due, and the worker wakes and looks. So does a sleep until a time that is not that of
the first item any more. -/
def movesLeft (timer : Timer) (limit : Nat) (debouncer : Debouncer α) : Nat :=
  3 * debouncer.pending.length +
    match debouncer.worker with
    | .looking => if debouncer.isNotified then 4 else 2
    | .waiting due? =>
      if debouncer.isNotified then 3
      else (if due? = debouncer.nextDue? then 0 else 3) +
        if debouncer.hasCome timer due? .slept || limit ≤ debouncer.now then 0 else 1
    | .ended => 0

theorem movesLeft_le (timer : Timer) (limit : Nat) (debouncer : Debouncer α) :
    debouncer.movesLeft timer limit ≤ 3 * debouncer.pending.length + 4 := by
  apply Nat.add_le_add_left
  split
  · split <;> omega
  · split
    · omega
    · split <;> split <;> omega
  · omega

/-- A worker that has slept until the first item is due takes it out. -/
theorem length_wake_slept_lt {due : Nat} (hnext : debouncer.nextDue? = some due)
    (hdue : due ≤ debouncer.now) :
    (debouncer.wake .slept).2.pending.length < debouncer.pending.length := by
  obtain ⟨entry, hentry, rfl⟩ := List.mem_map.1 (List.min?_eq_some_iff.1 hnext).1
  rw [wake_slept_eq]
  refine List.length_filter_lt_length_iff_exists.2 ⟨entry, hentry, ?_⟩
  simpa using hdue

/-- A worker that waits with nothing to look at makes few moves for its sleep. -/
theorem movesLeft_of_waiting {due? : Option Nat} (hwaiting : debouncer.worker = .waiting due?)
    (hquiet : debouncer.isNotified = false) :
    debouncer.movesLeft timer limit = 3 * debouncer.pending.length +
      ((if due? = debouncer.nextDue? then 0 else 3) +
        if debouncer.hasCome timer due? .slept || limit ≤ debouncer.now then 0 else 1) := by
  simp only [movesLeft, hwaiting, hquiet, Bool.false_eq_true, if_false]

/-- Waking from a sleep brings the worker nearer to having nothing to do. -/
theorem movesLeft_slept_lt (hearly : ∀ due, due ≤ timer.ends due) {due? : Option Nat}
    (hwaiting : debouncer.worker = .waiting due?) (hquiet : debouncer.isNotified = false)
    (hslept : debouncer.hasCome timer due? .slept = true) :
    (debouncer.wake .slept).2.movesLeft timer limit < debouncer.movesLeft timer limit := by
  have hafter : (debouncer.wake .slept).2.movesLeft timer limit =
      3 * (debouncer.wake .slept).2.pending.length + 2 := by
    rw [wake_slept_eq]
    simp only [movesLeft, hquiet, Bool.false_eq_true, if_false]
  have hfewer : (debouncer.wake .slept).2.pending.length ≤ debouncer.pending.length :=
    (pending_move_sublist debouncer (.wake .slept)).length_le
  rw [hafter, movesLeft_of_waiting hwaiting hquiet, hslept]
  by_cases hfresh : due? = debouncer.nextDue?
  · obtain ⟨due, rfl, hends⟩ := (Option.any_eq_true _ _).1 hslept
    have hdue : due ≤ debouncer.now := Nat.le_trans (hearly due) (of_decide_eq_true hends)
    have hless := length_wake_slept_lt hfresh.symm hdue
    simp only [hfresh, if_true]
    omega
  · simp only [hfresh, if_false, Bool.true_or, if_true]
    omega

theorem movesLeft_pass_lt {due? : Option Nat} (hwaiting : debouncer.worker = .waiting due?)
    (hquiet : debouncer.isNotified = false)
    (hasleep : debouncer.hasCome timer due? .slept = false) {bound : Nat}
    (hbound : bound = (due?.map timer.ends).elim limit (min limit))
    (hlater : debouncer.now < bound) :
    (debouncer.move (.pass (bound - debouncer.now))).2.movesLeft timer limit <
      debouncer.movesLeft timer limit := by
  have hnow : (debouncer.move (.pass (bound - debouncer.now))).2.now = bound := by
    change debouncer.now + (bound - debouncer.now) = bound
    omega
  have hlimit : ¬ limit ≤ debouncer.now := by
    cases due? with
    | none =>
      rw [hbound] at hlater
      exact Nat.not_le.2 hlater
    | some due =>
      rw [hbound] at hlater
      exact Nat.not_le.2 (Nat.lt_of_lt_of_le hlater (Nat.min_le_left _ _))
  -- Time passes until the sleep ends, or as far as it may.
  have hover : ((debouncer.move (.pass (bound - debouncer.now))).2.hasCome timer due? .slept ||
      decide (limit ≤ (debouncer.move (.pass (bound - debouncer.now))).2.now)) = true := by
    rw [hasCome, hnow]
    cases due? with
    | none =>
      rw [hbound]
      exact decide_eq_true (Nat.le_refl limit)
    | some due =>
      have hsame : bound = min limit (timer.ends due) := hbound
      simp only [Option.any_some, Bool.or_eq_true, decide_eq_true_eq]
      omega
  have hafter := @movesLeft_of_waiting _ timer
    (debouncer.move (.pass (bound - debouncer.now))).2 limit due? hwaiting hquiet
  have hnext : (debouncer.move (.pass (bound - debouncer.now))).2.nextDue? =
      debouncer.nextDue? := rfl
  have hlength : (debouncer.move (.pass (bound - debouncer.now))).2.pending.length =
      debouncer.pending.length := rfl
  rw [hover, hnext, hlength] at hafter
  rw [hafter, movesLeft_of_waiting hwaiting hquiet, hasleep, decide_eq_false hlimit]
  simp only [Bool.or_self, Bool.false_eq_true, if_false, if_true]
  omega

/-- Each move of a running debouncer leaves fewer. -/
theorem movesLeft_move_lt (hearly : ∀ due, due ≤ timer.ends due)
    (hrunning : debouncer.isRunning = true) (hworker : debouncer.worker ≠ .ended) {move : Move}
    (hnext : debouncer.next? timer limit = some move) :
    (debouncer.move move).2.movesLeft timer limit < debouncer.movesLeft timer limit := by
  cases happensNext_of_next? hnext with
  | look hlooking =>
    cases hquiet : debouncer.isNotified with
    | true => simp [movesLeft, Debouncer.move, look, hlooking, hquiet]
    | false =>
      have hlooked := @movesLeft_of_waiting _ timer debouncer.look limit debouncer.nextDue? rfl
        hquiet
      have hsame : debouncer.nextDue? = debouncer.look.nextDue? := rfl
      have hlength : debouncer.look.pending.length = debouncer.pending.length := rfl
      rw [Debouncer.move, hlooked, if_pos hsame, hlength]
      simp only [movesLeft, hlooking, hquiet, Bool.false_eq_true, if_false]
      split <;> omega
  | wake due? signal hwaiting hcome hquiet =>
    cases signal with
    | stopped =>
      rw [hasCome, hrunning] at hcome
      cases hcome
    | scheduled =>
      have hnotified : debouncer.isNotified = true := hcome
      simp [movesLeft, Debouncer.move, wake, hwaiting, hnotified]
    | slept => exact movesLeft_slept_lt hearly hwaiting (hquiet rfl) hcome
  | sleep due? bound hwaiting hnone hbound hlater =>
    exact movesLeft_pass_lt hwaiting (hnone .scheduled) (hnone .slept) hbound hlater
  | rest hended _ => exact absurd hended hworker

/-- With enough moves nothing is left to happen until some time. -/
theorem settled_moves (htimer : timer.IsTimely latency) {count : Nat}
    (hattentive : debouncer.Attentive timer latency)
    (henough : debouncer.movesLeft timer limit ≤ count) :
    (moves timer limit count debouncer).2.next? timer limit = none := by
  induction count generalizing debouncer with
  | zero =>
    rw [moves]
    cases hnext : debouncer.next? timer limit with
    | none => rfl
    | some move =>
      have hless := movesLeft_move_lt htimer.never_early hattentive.isRunning
        hattentive.worker_ne_ended hnext
      omega
  | succ count ih =>
    rw [moves]
    split
    · exact ‹_›
    · rename_i move hnext
      have hless := movesLeft_move_lt htimer.never_early hattentive.isRunning
        hattentive.worker_ne_ended hnext
      have hallowed : debouncer.allowsEvent timer (.move move) = true := allows_of_next? hnext
      have hafter : (debouncer.move move).2.Attentive timer latency :=
        hattentive.step htimer hallowed
      exact ih hafter (by omega)

end

/-! ## Time that passes -/

/-- Time passes in moves that are possible, and then the worker has nothing to do. -/
theorem exists_moves_advanceBy (htimer : timer.IsTimely latency)
    (hattentive : debouncer.Attentive timer latency) (duration : Nat) :
    ∃ made : List Move, debouncer.allowsAll timer (made.map .move) = true ∧
      debouncer.stepAll (made.map .move) = debouncer.advanceBy timer duration ∧
      (debouncer.advanceBy timer duration).2.now = debouncer.now + duration ∧
      (debouncer.advanceBy timer duration).2.isIdle timer = true := by
  obtain ⟨made, hallowed, hmade⟩ := exists_moves timer (debouncer.now + duration)
    (3 * debouncer.pending.length + 4) debouncer
  have hsettled := settled_moves htimer hattentive
    (movesLeft_le timer (debouncer.now + duration) debouncer)
  have hnow : (debouncer.advanceBy timer duration).2.now ≤ debouncer.now + duration :=
    now_moves_le _ (Nat.le_add_right _ _)
  exact ⟨made, hallowed, hmade, isIdle_of_next?_eq_none hsettled hnow⟩

/-- What moves take out, and what they leave, is what has waited. What they take out is due by
then. -/
theorem exists_taken_moves {limit : Nat} (count : Nat) (hnow : debouncer.now ≤ limit) :
    ∃ taken : KeyedList (Delayed α), (moves timer limit count debouncer).1 =
        taken.map (·.2.item) ∧
      debouncer.pending.Perm (taken ++ (moves timer limit count debouncer).2.pending) ∧
      ∀ entry ∈ taken, entry.2.due ≤ limit := by
  induction count generalizing debouncer with
  | zero => exact ⟨[], rfl, List.Perm.refl _, nofun⟩
  | succ count ih =>
    rw [moves]
    split
    · exact ⟨[], rfl, List.Perm.refl _, nofun⟩
    · rename_i move hnext
      -- The items are those that the first move takes out and those that are taken out later.
      obtain ⟨first, hfirstItems, hfirstPerm, hfirst⟩ := exists_taken_move debouncer move
      obtain ⟨later, hlaterItems, hlaterPerm, hlater⟩ := ih (now_move_le hnext hnow)
      refine ⟨first ++ later, ?_, ?_, ?_⟩
      · rw [List.map_append, ← hfirstItems, ← hlaterItems]
      · rw [List.append_assoc]
        exact hfirstPerm.trans (List.Perm.append_left _ hlaterPerm)
      · exact List.forall_mem_append.2
          ⟨fun entry hentry => Nat.le_trans (hfirst entry hentry) hnow, hlater⟩

/-- Of a list those that are taken are those with a property, if the rest has it not. -/
theorem perm_filter_of_perm_append {β : Type} {whole taken left : List β} {p : β → Bool}
    (hperm : whole.Perm (taken ++ left)) (hsublist : left.Sublist whole)
    (htaken : ∀ entry ∈ taken, p entry = true) (hleft : ∀ entry ∈ left, p entry = false) :
    taken.Perm (whole.filter p) ∧ left = whole.filter (!p ·) := by
  have hall : taken.filter p = taken := List.filter_eq_self.2 htaken
  have hkept : left.filter (!p ·) = left :=
    List.filter_eq_self.2 fun entry hentry => by rw [hleft entry hentry, Bool.not_false]
  have hnone : left.filter p = [] :=
    List.filter_eq_nil_iff.2 fun entry hentry => by simp [hleft entry hentry]
  have hgone : taken.filter (!p ·) = [] :=
    List.filter_eq_nil_iff.2 fun entry hentry => by simp [htaken entry hentry]
  constructor
  · have hsame := hperm.filter p
    rw [List.filter_append, hall, hnone, List.append_nil] at hsame
    exact hsame.symm
  · have hsame := hperm.filter (!p ·)
    rw [List.filter_append, hgone, hkept, List.nil_append] at hsame
    have hrest := hsublist.filter (!p ·)
    rw [hkept] at hrest
    exact hrest.eq_of_length hsame.length_eq.symm

/-- While time passes, the worker hands over exactly what becomes due. -/
theorem advance_takes_due (hattentive : debouncer.Attentive .punctual 0) (duration : Nat) :
    (debouncer.advance duration).1.Perm
        ((debouncer.pending.filter fun entry =>
          entry.2.due ≤ debouncer.now + duration).map (·.2.item)) ∧
      (debouncer.advance duration).2.pending =
        debouncer.pending.filter fun entry =>
          !decide (entry.2.due ≤ debouncer.now + duration) := by
  obtain ⟨made, hallowed, hmade, hnow, hidle⟩ :=
    exists_moves_advanceBy Timer.isTimely_punctual hattentive duration
  have hafter := hattentive.stepAll Timer.isTimely_punctual hallowed
  rw [hmade] at hafter
  have hleft : ∀ entry ∈ (debouncer.advance duration).2.pending,
      ¬ entry.2.due ≤ debouncer.now + duration := by
    intro entry hentry
    have hlate := hafter.lt_of_isIdle Timer.isTimely_punctual hidle hentry
    rw [hnow] at hlate
    exact Nat.not_le.2 hlate
  obtain ⟨taken, hitems, hperm, htaken⟩ := @exists_taken_moves _ Timer.punctual debouncer
    (debouncer.now + duration) (3 * debouncer.pending.length + 4) (Nat.le_add_right _ _)
  change (debouncer.advance duration).1 = _ at hitems
  obtain ⟨hfirst, hsecond⟩ := perm_filter_of_perm_append hperm
    (debouncer.pending_advance_sublist duration)
    (fun entry hentry => decide_eq_true (htaken entry hentry))
    (fun entry hentry => decide_eq_false (hleft entry hentry))
  rw [hitems]
  exact ⟨hfirst.map _, hsecond⟩

end Debouncer

end SymbolIndex
