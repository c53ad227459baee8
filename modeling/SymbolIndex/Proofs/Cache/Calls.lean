import Mathlib.Data.List.Induction
import SymbolIndex.Cache.Memory
import SymbolIndex.KeyedList
import SymbolIndex.Proofs.Filing

/-!
# Runs of calls to a byte store

The calls to a byte store one after another, and what the replies should be: a read gives the value
written last under its key, unless the key was deleted or all was cleared since. The memory cache
keeps to this.
-/

namespace SymbolIndex

namespace ByteStore

/-- A call to a byte store, or closing it and opening it anew. -/
inductive Call where
  | read (key : String)
  | write (key : String) (bytes : List UInt8)
  | delete (key : String)
  | flush
  | clear
  | reopen

/-- What a call gives back. A change that succeeds gives back nothing. -/
abbrev Reply := Except StorageFault (Option (List UInt8))

variable {σ : Type}

/-- A change seen as a call. -/
def replied (attempt : Attempt StorageFault σ) : Reply × σ :=
  (match attempt.fault? with
    | none => .ok none
    | some fault => .error fault,
    attempt.after)

section

variable [ByteStore σ] (reopened : σ → σ)

def perform (store : σ) : Call → Reply × σ
  | .read key => (ByteStore.read store key, store)
  | .write key bytes => replied (ByteStore.write store key bytes)
  | .delete key => replied (ByteStore.delete store key)
  | .flush => replied (ByteStore.flush store)
  | .clear => replied (ByteStore.clear store)
  | .reopen => (.ok none, reopened store)

def performAll (store : σ) : List Call → List Reply × σ
  | [] => ([], store)
  | call :: rest =>
    let (reply, store) := perform reopened store call
    let (replies, store) := performAll store rest
    (reply :: replies, store)

theorem performAll_append (store : σ) (calls later : List Call) :
    performAll reopened store (calls ++ later) =
      let (replies, store) := performAll reopened store calls
      let (rest, store) := performAll reopened store later
      (replies ++ rest, store) := by
  induction calls generalizing store with
  | nil => rfl
  | cons call calls ih =>
    rw [List.cons_append, performAll, performAll]
    simp only [ih, List.cons_append]

theorem length_performAll (store : σ) (calls : List Call) :
    (performAll reopened store calls).1.length = calls.length := by
  induction calls generalizing store with
  | nil => rfl
  | cons call calls ih =>
    rw [performAll, List.length_cons, List.length_cons, ih]

end

namespace Call

/-- The call decides what a key holds afterwards. -/
def settles (key : String) : Call → Bool
  | write other _ | delete other => other == key
  | clear => true
  | read _ | flush | reopen => false

/-- What a call leaves under the keys that it settles. -/
def left? : Call → Option (List UInt8)
  | write _ bytes => some bytes
  | _ => none

end Call

/-- The last value written under a key, unless the key was deleted or all was cleared since. -/
def lastWritten? (calls : List Call) (key : String) : Option (List UInt8) :=
  (calls.filter (·.settles key)).getLast?.bind Call.left?

theorem lastWritten?_concat (calls : List Call) (call : Call) (key : String) :
    lastWritten? (calls ++ [call]) key =
      if call.settles key then call.left? else lastWritten? calls key :=
  bind_getLast?_filter_concat calls (·.settles key) call Call.left?

end ByteStore

open ByteStore

namespace MemoryCache

/-- The memory cache after some calls, at first empty. It is not lost with its last user. -/
def after (calls : List Call) : MemoryCache :=
  (performAll id empty calls).2

theorem after_concat (calls : List Call) (call : Call) :
    after (calls ++ [call]) = (perform id (after calls) call).2 := by
  rw [after, performAll_append]
  rfl

/-- The memory cache holds the values that were written last. -/
theorem value?_after (calls : List Call) (key : String) :
    (after calls).entries.value? key = lastWritten? calls key := by
  induction calls using List.reverseRecOn with
  | nil => rfl
  | append_singleton calls call ih =>
    rw [after_concat, lastWritten?_concat]
    generalize after calls = cache at ih ⊢
    cases call with
    | write other bytes =>
      have hafter : (perform id cache (.write other bytes)).2.entries =
          cache.entries.put other bytes := rfl
      rw [hafter]
      by_cases heq : other = key
      · simp [Call.settles, Call.left?, heq]
      · simp [Call.settles, heq, KeyedList.value?_put_of_ne _ _ (Ne.symm heq), ih]
    | delete other =>
      have hafter : (perform id cache (.delete other)).2.entries =
          cache.entries.remove other := rfl
      rw [hafter]
      by_cases heq : other = key
      · simp [Call.settles, Call.left?, heq]
      · simp [Call.settles, heq, KeyedList.value?_remove_of_ne _ (Ne.symm heq), ih]
    | clear => rfl
    | read other => exact ih
    | flush => exact ih
    | reopen => exact ih

end MemoryCache

end SymbolIndex
