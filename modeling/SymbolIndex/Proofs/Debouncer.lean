import Mathlib.Data.List.Induction
import Mathlib.Data.List.Nodup
import SymbolIndex.Debouncer
import SymbolIndex.Proofs.KeyedList

/-!
# What calls and moves do to the items that wait

An item that was scheduled waits until an event ends its waiting: its key is flushed or all keys
are, or the worker takes out what is due, and then it is handed over; or its key is cancelled or
scheduled again, and then it is dropped.  A run is a list of events, calls and moves, in any order.
-/

namespace SymbolIndex

variable {α β : Type}

namespace Debouncer

variable {debouncer : Debouncer α}

/-! ## Calls -/

theorem mem_pending_of_flush {key : String} {item : α}
    (hitem : item ∈ (debouncer.flush key).1.toList) :
    ∃ entry ∈ debouncer.pending, entry.1 = key ∧ entry.2.item = item := by
  obtain ⟨delayed, hdelayed, rfl⟩ := Option.map_eq_some_iff.1 (Option.mem_toList.1 hitem)
  exact ⟨(key, delayed), KeyedList.mem_of_value? hdelayed, rfl, rfl⟩

theorem mem_pending_of_flushAll {item : α} (hitem : item ∈ debouncer.flushAll.1) :
    ∃ entry ∈ debouncer.pending, entry.2.item = item :=
  List.mem_map.1 hitem

/-! ## Moves -/

/-- What is due is taken out in order, and the rest waits on. -/
theorem takeDue_eq (debouncer : Debouncer α) :
    debouncer.takeDue =
      ((debouncer.pending.filter fun entry => entry.2.due ≤ debouncer.now).map
          fun entry => (entry.1, entry.2.item),
        { debouncer with
          pending := debouncer.pending.filter fun entry =>
            !decide (entry.2.due ≤ debouncer.now) }) := by
  simp only [takeDue, List.partition_eq_filter_filter]
  rfl

/-- A worker that has slept hands over what is due. -/
theorem wake_slept_eq (debouncer : Debouncer α) :
    debouncer.wake .slept =
      ((debouncer.pending.filter fun entry => entry.2.due ≤ debouncer.now).map (·.2.item),
        { debouncer with
          pending := debouncer.pending.filter fun entry =>
            !decide (entry.2.due ≤ debouncer.now)
          worker := .looking }) := by
  simp only [wake, takeDue_eq, List.map_map]
  rfl

/-- A move splits what waits into what it takes out, which is due, and what it leaves. -/
theorem exists_taken_move (debouncer : Debouncer α) (move : Move) :
    ∃ taken : KeyedList (Delayed α), (debouncer.move move).1 = taken.map (·.2.item) ∧
      debouncer.pending.Perm (taken ++ (debouncer.move move).2.pending) ∧
      ∀ entry ∈ taken, entry.2.due ≤ debouncer.now := by
  cases move with
  | look | pass duration => exact ⟨[], rfl, List.Perm.refl _, nofun⟩
  | wake signal =>
    cases signal with
    | stopped | scheduled => exact ⟨[], rfl, List.Perm.refl _, nofun⟩
    | slept =>
      rw [Debouncer.move, wake_slept_eq]
      have hsplit := List.filter_append_perm (fun entry => entry.2.due ≤ debouncer.now)
        debouncer.pending
      exact ⟨_, rfl, hsplit.symm,
        fun entry hentry => of_decide_eq_true (List.mem_filter.1 hentry).2⟩

/-- What a move takes out waited, and was due. -/
theorem mem_pending_of_move {move : Move} {item : α} (hitem : item ∈ (debouncer.move move).1) :
    ∃ entry ∈ debouncer.pending, entry.2.due ≤ debouncer.now ∧ entry.2.item = item := by
  obtain ⟨taken, hitems, hperm, hdue⟩ := exists_taken_move debouncer move
  rw [hitems] at hitem
  obtain ⟨entry, hentry, rfl⟩ := List.mem_map.1 hitem
  exact ⟨entry, hperm.symm.subset (List.mem_append_left _ hentry), hdue entry hentry, rfl⟩

theorem pending_move_sublist (debouncer : Debouncer α) (move : Move) :
    (debouncer.move move).2.pending.Sublist debouncer.pending := by
  cases move with
  | look | pass duration => exact List.Sublist.refl _
  | wake signal =>
    cases signal with
    | stopped | scheduled => exact List.Sublist.refl _
    | slept =>
      rw [move, wake_slept_eq]
      exact List.filter_sublist

section

variable {timer : Timer} {limit : Nat}

theorem pending_moves_sublist (count : Nat) (debouncer : Debouncer α) :
    (moves timer limit count debouncer).2.pending.Sublist debouncer.pending := by
  induction count generalizing debouncer with
  | zero => exact List.Sublist.refl _
  | succ count ih =>
    rw [moves]
    split
    · exact List.Sublist.refl _
    · exact (ih _).trans (pending_move_sublist debouncer _)

theorem mem_pending_of_moves {count : Nat} {item : α}
    (hitem : item ∈ (moves timer limit count debouncer).1) :
    ∃ entry ∈ debouncer.pending, entry.2.item = item := by
  induction count generalizing debouncer with
  | zero => cases hitem
  | succ count ih =>
    rw [moves] at hitem
    split at hitem
    · cases hitem
    · rename_i move _
      rcases List.mem_append.1 hitem with hfirst | hlater
      · obtain ⟨entry, hentry, -, hsame⟩ := mem_pending_of_move hfirst
        exact ⟨entry, hentry, hsame⟩
      · obtain ⟨entry, hentry, hsame⟩ := ih hlater
        exact ⟨entry, (pending_move_sublist debouncer move).subset hentry, hsame⟩

end

/-- What is taken out while time passes has waited. -/
theorem mem_pending_of_advance {duration : Nat} {item : α}
    (hitem : item ∈ (debouncer.advance duration).1) :
    ∃ entry ∈ debouncer.pending, entry.2.item = item :=
  mem_pending_of_moves hitem

theorem pending_advance_sublist (debouncer : Debouncer α) (duration : Nat) :
    (debouncer.advance duration).2.pending.Sublist debouncer.pending :=
  pending_moves_sublist _ debouncer

/-! ## Events -/

inductive Event (α : Type) where
  | schedule (key : String) (item : α)
  | flush (key : String)
  | flushAll
  | cancel (key : String)
  | move (move : Move)

/-- The time that passes during an event. -/
def Event.duration : Event α → Nat
  | move (.pass duration) => duration
  | _ => 0

/-- The event, at the time `now`, hands an item of a key over that is due at a time. -/
def Event.Releases (now : Nat) (key : String) (due : Nat) : Event α → Prop
  | flush other => other = key
  | flushAll => True
  | move (.wake .slept) => due ≤ now
  | schedule _ _ | cancel _ | move _ => False

/-- The event takes an item of a key away without handing it over. -/
def Event.Drops (key : String) : Event α → Prop
  | schedule other _ | cancel other => other = key
  | flush _ | flushAll | move _ => False

/-- The items that are handed over during an event, and the debouncer after it. -/
def step (debouncer : Debouncer α) : Event α → List α × Debouncer α
  | .schedule key item => ([], debouncer.schedule key item)
  | .flush key => ((debouncer.flush key).1.toList, (debouncer.flush key).2)
  | .flushAll => debouncer.flushAll
  | .cancel key => ([], debouncer.cancel key)
  | .move move => debouncer.move move

/-- Time passes by the duration of the event, and no event changes how long items wait. -/
theorem clock_step (debouncer : Debouncer α) (event : Event α) :
    (debouncer.step event).2.now = debouncer.now + event.duration ∧
      (debouncer.step event).2.wait = debouncer.wait ∧
      (debouncer.step event).2.isRunning = debouncer.isRunning := by
  cases event with
  | move move =>
    cases move with
    | look | pass duration => exact ⟨rfl, rfl, rfl⟩
    | wake signal => cases signal <;> exact ⟨rfl, rfl, rfl⟩
  | _ => exact ⟨rfl, rfl, rfl⟩

/-- An event leaves the keys distinct. -/
theorem nodup_step (honce : (debouncer.pending.map (·.1)).Nodup) (event : Event α) :
    ((debouncer.step event).2.pending.map (·.1)).Nodup := by
  have hremove := KeyedList.nodup_remove honce
  cases event with
  | schedule key item =>
    rw [step, schedule]
    simp only [List.map_append, List.map_cons, List.map_nil]
    rw [List.nodup_append]
    refine ⟨hremove key, List.nodup_singleton key, ?_⟩
    intro name hname other hother heq
    obtain ⟨entry, hentry, rfl⟩ := List.mem_map.1 hname
    exact (KeyedList.mem_remove_iff.1 hentry).2 (heq.trans (List.mem_singleton.1 hother))
  | flush key => exact hremove key
  | flushAll => exact List.nodup_nil
  | cancel key => exact hremove key
  | move move => exact ((debouncer.pending_move_sublist move).map _).nodup honce

/-- An entry waits on unless the event ends its waiting. -/
theorem mem_pending_step_iff (event : Event α) (entry : String × Delayed α) :
    entry ∈ (debouncer.step event).2.pending ↔
      (entry ∈ debouncer.pending ∧
          ¬ event.Releases debouncer.now entry.1 entry.2.due ∧ ¬ event.Drops entry.1) ∨
        ∃ item, event = .schedule entry.1 item ∧
          entry.2 = ⟨item, debouncer.now + debouncer.wait⟩ := by
  cases event with
  | schedule key item =>
    rw [step, schedule, List.mem_append, KeyedList.mem_remove_iff, List.mem_singleton]
    simp only [Event.Releases, Event.Drops, Event.schedule.injEq]
    constructor
    · rintro (⟨hmem, hne⟩ | rfl)
      · exact Or.inl ⟨hmem, not_false, fun heq => hne heq.symm⟩
      · exact Or.inr ⟨item, ⟨rfl, rfl⟩, rfl⟩
    · rintro (⟨hmem, -, hne⟩ | ⟨_, ⟨hkey, rfl⟩, hdelayed⟩)
      · exact Or.inl ⟨hmem, fun heq => hne heq.symm⟩
      · exact Or.inr (Prod.ext hkey.symm hdelayed)
  | flush key =>
    rw [step, Debouncer.flush, cancel, KeyedList.mem_remove_iff]
    simp [Event.Releases, Event.Drops, eq_comm]
  | flushAll => simp [step, Debouncer.flushAll, Event.Releases]
  | cancel key =>
    rw [step, Debouncer.cancel, KeyedList.mem_remove_iff]
    simp [Event.Releases, Event.Drops, eq_comm]
  | move move =>
    cases move with
    | look | pass duration => simp [step, Debouncer.move, look, Event.Releases, Event.Drops]
    | wake signal =>
      cases signal with
      | stopped | scheduled => simp [step, Debouncer.move, wake, Event.Releases, Event.Drops]
      | slept =>
        rw [step, Debouncer.move, wake_slept_eq, List.mem_filter]
        simp [Event.Releases, Event.Drops]

/-- The items that an event hands over. -/
theorem mem_step_iff (honce : (debouncer.pending.map (·.1)).Nodup) (event : Event α) (item : α) :
    item ∈ (debouncer.step event).1 ↔
      ∃ entry ∈ debouncer.pending,
        event.Releases debouncer.now entry.1 entry.2.due ∧ entry.2.item = item := by
  cases event with
  | schedule key item => simp [step, Event.Releases]
  | flush key =>
    have hpending : ∀ delayed, debouncer.pending.value? key = some delayed ↔
        (key, delayed) ∈ debouncer.pending := fun _ => KeyedList.value?_eq_some_iff honce
    rw [step, Option.mem_toList, Debouncer.flush, pending?]
    simp only [Option.map_eq_some_iff, hpending, Event.Releases]
    constructor
    · rintro ⟨delayed, hmem, rfl⟩
      exact ⟨(key, delayed), hmem, rfl, rfl⟩
    · rintro ⟨⟨_, delayed⟩, hmem, rfl, rfl⟩
      exact ⟨delayed, hmem, rfl⟩
  | flushAll => simp [step, Debouncer.flushAll, Event.Releases]
  | cancel key => simp [step, Event.Releases]
  | move move =>
    cases move with
    | look | pass duration => simp [step, Debouncer.move, Event.Releases]
    | wake signal =>
      cases signal with
      | stopped | scheduled => simp [step, Debouncer.move, wake, Event.Releases]
      | slept =>
        rw [step, Debouncer.move, wake_slept_eq]
        simp [Event.Releases, and_assoc]

/-- An event hands over some of what waits, each entry once. -/
theorem step_sublist (debouncer : Debouncer α) (event : Event α) :
    (debouncer.step event).1.Sublist (debouncer.pending.map (·.2.item)) := by
  cases event with
  | schedule key item => exact List.nil_sublist _
  | flush key =>
    cases hitem : (debouncer.flush key).1 with
    | none => simp [step, hitem]
    | some item =>
      obtain ⟨entry, hentry, -, rfl⟩ := mem_pending_of_flush (Option.mem_toList.2 hitem)
      rw [step, hitem]
      exact List.singleton_sublist.2 (List.mem_map_of_mem hentry)
  | flushAll => exact List.Sublist.refl _
  | cancel key => exact List.nil_sublist _
  | move move =>
    cases move with
    | look | pass duration => exact List.nil_sublist _
    | wake signal =>
      cases signal with
      | stopped | scheduled => exact List.nil_sublist _
      | slept =>
        rw [step, Debouncer.move, wake_slept_eq]
        exact List.filter_sublist.map _

/-! ## Runs -/

/-- What is handed over during some events, and the debouncer after them. -/
def stepAll : Debouncer α → List (Event α) → List α × Debouncer α
  | debouncer, [] => ([], debouncer)
  | debouncer, event :: rest =>
    ((debouncer.step event).1 ++ ((debouncer.step event).2.stepAll rest).1,
      ((debouncer.step event).2.stepAll rest).2)

/-- Events one after another hand over their items in that order. -/
theorem stepAll_append (debouncer : Debouncer α) (first second : List (Event α)) :
    debouncer.stepAll (first ++ second) =
      ((debouncer.stepAll first).1 ++ ((debouncer.stepAll first).2.stepAll second).1,
        ((debouncer.stepAll first).2.stepAll second).2) := by
  induction first generalizing debouncer with
  | nil => rfl
  | cons event rest ih => rw [List.cons_append, stepAll, ih, stepAll, List.append_assoc]

/-- A running debouncer after some events. -/
def after (wait : Nat) (events : List (Event α)) : Debouncer α :=
  (stepAll { wait := wait } events).2

theorem after_append (wait : Nat) (first second : List (Event α)) :
    after wait (first ++ second) = ((after wait first).stepAll second).2 := by
  rw [after, stepAll_append, after]

theorem after_concat (wait : Nat) (events : List (Event α)) (event : Event α) :
    after wait (events ++ [event]) = ((after wait events).step event).2 :=
  after_append wait events [event]

/-- The time that has passed after some events. -/
def elapsed : List (Event α) → Nat
  | [] => 0
  | event :: rest => event.duration + elapsed rest

theorem elapsed_append (first second : List (Event α)) :
    elapsed (first ++ second) = elapsed first + elapsed second := by
  induction first with
  | nil => rw [List.nil_append, elapsed, Nat.zero_add]
  | cons event rest ih => rw [List.cons_append, elapsed, elapsed, ih, Nat.add_assoc]

/-- The clock shows the time that has passed, and the time to wait stays as it was. -/
theorem clock_stepAll (debouncer : Debouncer α) (events : List (Event α)) :
    (debouncer.stepAll events).2.now = debouncer.now + elapsed events ∧
      (debouncer.stepAll events).2.wait = debouncer.wait := by
  induction events generalizing debouncer with
  | nil => exact ⟨rfl, rfl⟩
  | cons event rest ih =>
    obtain ⟨hnow, hwait, -⟩ := clock_step debouncer event
    obtain ⟨hnow', hwait'⟩ := ih (debouncer.step event).2
    rw [stepAll, hnow', hwait', hnow, hwait, Nat.add_assoc]
    exact ⟨rfl, rfl⟩

/-- The clock shows the time that has passed. -/
theorem clock_after (wait : Nat) (events : List (Event α)) :
    (after wait events).now = elapsed events ∧ (after wait events).wait = wait := by
  obtain ⟨hnow, hwait⟩ := clock_stepAll { wait := wait } events
  rw [after, hnow, hwait]
  exact ⟨Nat.zero_add _, rfl⟩

/-- No two items wait under one key. -/
theorem nodup_after (wait : Nat) (events : List (Event α)) :
    ((after wait events).pending.map (·.1)).Nodup := by
  induction events using List.reverseRecOn with
  | nil => exact List.nodup_nil
  | append_singleton events event ih =>
    rw [after_concat]
    exact nodup_step ih event

end Debouncer

end SymbolIndex
