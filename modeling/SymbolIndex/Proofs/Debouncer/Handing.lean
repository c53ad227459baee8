import SymbolIndex.Proofs.Debouncer.Worker

/-!
# What a debouncer hands over

`handed_exactly` says what happens to each item over a whole run: it waits until an event releases
it, and is handed over then, once, or until an event drops it.  The worker does this when the item
is due, neither earlier nor later than the latency of its timer.  The items carry the place of the
event that scheduled them, since equal items may be scheduled many times.
-/

namespace SymbolIndex

variable {α β : Type}

/-- The same wait for another item. -/
def Delayed.map (f : α → β) (delayed : Delayed α) : Delayed β :=
  ⟨f delayed.item, delayed.due⟩

namespace Debouncer

namespace Event

def map (f : α → β) : Event α → Event β
  | schedule key item => schedule key (f item)
  | flush key => flush key
  | flushAll => flushAll
  | cancel key => cancel key
  | move made => move made

@[simp]
theorem duration_map (f : α → β) (event : Event α) :
    (event.map f).duration = event.duration := by
  cases event with
  | move made => cases made <;> rfl
  | _ => rfl

@[simp]
theorem releases_map {now due : Nat} {key : String} (f : α → β) (event : Event α) :
    (event.map f).Releases now key due ↔ event.Releases now key due := by
  cases event with
  | move made =>
    cases made with
    | wake signal => cases signal <;> rfl
    | look | pass duration => rfl
  | _ => rfl

@[simp]
theorem drops_map {key : String} (f : α → β) (event : Event α) :
    (event.map f).Drops key ↔ event.Drops key := by
  cases event <;> rfl

theorem map_eq_schedule_iff {f : α → β} {event : Event α} {key : String} {item : β} :
    event.map f = .schedule key item ↔
      ∃ original, event = .schedule key original ∧ f original = item := by
  cases event <;> simp [map]

end Event

/-! ## Items and where they come from -/

/-- Every item with the place of the event that schedules it. -/
def labelled (events : List (Event α)) : List (Event (Nat × α)) :=
  events.mapIdx fun place event => event.map (place, ·)

theorem labelled_concat (events : List (Event α)) (event : Event α) :
    labelled (events ++ [event]) = labelled events ++ [event.map (events.length, ·)] :=
  List.mapIdx_concat

theorem getElem?_labelled (events : List (Event α)) (place : Nat) :
    (labelled events)[place]? = events[place]?.map (·.map (place, ·)) :=
  List.getElem?_mapIdx

theorem take_labelled (events : List (Event α)) (count : Nat) :
    (labelled events).take count = labelled (events.take count) := by
  apply List.ext_getElem?
  intro place
  rw [List.getElem?_take, getElem?_labelled, getElem?_labelled, List.getElem?_take]
  split <;> rfl

theorem elapsed_labelled (events : List (Event α)) :
    elapsed (labelled events) = elapsed events := by
  induction events using List.reverseRecOn with
  | nil => rfl
  | append_singleton events event ih =>
    rw [labelled_concat, elapsed_append, elapsed_append, ih]
    simp [elapsed]

/-- The items that the event at a place hands over. -/
def handed (wait : Nat) (events : List (Event α)) (place : Nat) : List α :=
  match events[place]? with
  | none => []
  | some event => ((after wait (events.take place)).step event).1

section

variable (wait : Nat) (events : List (Event α)) (key : String)

/-- The event at `place` hands over what was scheduled at `start` for a key, if it waits still. -/
def ReleasedAt (start place : Nat) : Prop :=
  ∃ event, events[place]? = some event ∧
    event.Releases (elapsed (events.take place)) key (elapsed (events.take start) + wait)

def DroppedAt (place : Nat) : Prop :=
  ∃ event, events[place]? = some event ∧ event.Drops key

/-- No event after the one at `start` and before the one at `place` has ended the waiting. -/
def WaitsUntil (start place : Nat) : Prop :=
  start < place ∧ ∀ between, start < between → between < place →
    ¬ ReleasedAt wait events key start between ∧ ¬ DroppedAt events key between

variable {wait events key}

theorem releasedAt_iff {start place : Nat} {event : Event α}
    (hevent : events[place]? = some event) :
    ReleasedAt wait events key start place ↔
      event.Releases (elapsed (events.take place)) key (elapsed (events.take start) + wait) := by
  simp [ReleasedAt, hevent]

theorem droppedAt_iff {place : Nat} {event : Event α} (hevent : events[place]? = some event) :
    DroppedAt events key place ↔ event.Drops key := by
  simp [DroppedAt, hevent]

/-- An item waits beyond an event if it was scheduled by it, or waited and was neither released
nor dropped. -/
theorem waitsUntil_succ {start place : Nat} :
    WaitsUntil wait events key start (place + 1) ↔
      start = place ∨ WaitsUntil wait events key start place ∧
        ¬ ReleasedAt wait events key start place ∧ ¬ DroppedAt events key place := by
  constructor
  · rintro ⟨hstart, hbetween⟩
    rcases Nat.lt_succ_iff_lt_or_eq.1 hstart with hlt | heq
    · exact Or.inr ⟨⟨hlt, fun between hlow hhigh => hbetween between hlow (by omega)⟩,
        hbetween place hlt (Nat.lt_succ_self place)⟩
    · exact Or.inl heq
  · rintro (rfl | ⟨⟨hstart, hbetween⟩, hplace⟩)
    · exact ⟨Nat.lt_succ_self start, fun between hlow hhigh => by omega⟩
    · refine ⟨Nat.lt_succ_of_lt hstart, ?_⟩
      intro between hlow hhigh
      rcases Nat.lt_succ_iff_lt_or_eq.1 hhigh with hlt | rfl
      · exact hbetween between hlow hlt
      · exact hplace

/-- An item waits until its waiting is ended for the first time. -/
theorem eq_of_released {start place other : Nat}
    (hwaits : WaitsUntil wait events key start place)
    (hreleased : ReleasedAt wait events key start place)
    (hwaitsOther : WaitsUntil wait events key start other)
    (hreleasedOther : ReleasedAt wait events key start other) : place = other := by
  rcases Nat.lt_trichotomy place other with hlt | heq | hgt
  · exact absurd hreleased (hwaitsOther.2 place hwaits.1 hlt).1
  · exact heq
  · exact absurd hreleasedOther (hwaits.2 other hwaitsOther.1 hgt).1

end

/-! ## Runs with labels -/

section

variable (wait : Nat) (events : List (Event α))

/-- What waits after the first events are the items that were scheduled by one of them and whose
waiting none of the later ones has ended. -/
theorem mem_pending_after_iff (count : Nat) (key : String) (delayed : Delayed (Nat × α)) :
    (key, delayed) ∈ (after wait (labelled (events.take count))).pending ↔
      ∃ start item, events[start]? = some (.schedule key item) ∧
        WaitsUntil wait events key start count ∧
        delayed = ⟨(start, item), elapsed (events.take start) + wait⟩ := by
  -- By induction on the number of events. The last one ends the waiting of some items, and it may
  -- be the one that schedules the item.
  induction count generalizing key delayed with
  | zero =>
    rw [List.take_zero]
    constructor
    · exact fun hmem => absurd hmem List.not_mem_nil
    · rintro ⟨start, item, -, ⟨hstart, -⟩, -⟩
      exact absurd hstart (Nat.not_lt_zero start)
  | succ count ih =>
    rw [List.take_add_one]
    cases hevent : events[count]? with
    | none =>
      have hfree : ∀ start, ¬ ReleasedAt wait events key start count := by simp [ReleasedAt, hevent]
      have hkept : ¬ DroppedAt events key count := by simp [DroppedAt, hevent]
      rw [Option.toList_none, List.append_nil, ih]
      simp only [waitsUntil_succ, hfree, hkept, not_false_eq_true, and_true]
      constructor
      · rintro ⟨start, item, hstart, hwaits, hdelayed⟩
        exact ⟨start, item, hstart, Or.inr hwaits, hdelayed⟩
      · rintro ⟨start, item, hstart, rfl | hwaits, hdelayed⟩
        · rw [hevent] at hstart
          cases hstart
        · exact ⟨start, item, hstart, hwaits, hdelayed⟩
    | some event =>
      have hcount : (events.take count).length = count :=
        List.length_take_of_le (Nat.le_of_lt (List.getElem?_eq_some_iff.1 hevent).1)
      obtain ⟨hnow, hwait⟩ := clock_after wait (labelled (events.take count))
      rw [Option.toList_some, labelled_concat, after_concat, mem_pending_step_iff, ih,
        hnow, hwait, elapsed_labelled, hcount]
      simp only [waitsUntil_succ, releasedAt_iff hevent, droppedAt_iff hevent,
        Event.releases_map, Event.drops_map]
      constructor
      · rintro (⟨⟨start, item, hstart, hwaits, rfl⟩, hends⟩ | ⟨item, hschedule, hdelayed⟩)
        · exact ⟨start, item, hstart, Or.inr ⟨hwaits, hends⟩, rfl⟩
        · obtain ⟨original, rfl, rfl⟩ := Event.map_eq_schedule_iff.1 hschedule
          exact ⟨count, original, hevent, Or.inl rfl, hdelayed⟩
      · rintro ⟨start, item, hstart, rfl | ⟨hwaits, hends⟩, rfl⟩
        · right
          rw [hevent] at hstart
          cases hstart
          exact ⟨(start, item), rfl, rfl⟩
        · exact Or.inl ⟨⟨start, item, hstart, hwaits, rfl⟩, hends⟩

/-- An event hands over what waits until it and is released by it. -/
theorem mem_handed_iff (start place : Nat) (item : α) :
    (start, item) ∈ handed wait (labelled events) place ↔
      ∃ key, events[start]? = some (.schedule key item) ∧
        WaitsUntil wait events key start place ∧ ReleasedAt wait events key start place := by
  rw [handed, getElem?_labelled, take_labelled]
  cases hevent : events[place]? with
  | none => simp [ReleasedAt, hevent]
  | some event =>
    obtain ⟨hnow, -⟩ := clock_after wait (labelled (events.take place))
    rw [Option.map_some]
    dsimp only
    rw [mem_step_iff (nodup_after wait _), hnow, elapsed_labelled]
    simp only [Event.releases_map, releasedAt_iff hevent]
    constructor
    · rintro ⟨⟨key, delayed⟩, hmem, hreleased, hitem⟩
      obtain ⟨other, waiting, hstart, hwaits, rfl⟩ :=
        (mem_pending_after_iff wait events place key delayed).1 hmem
      cases hitem
      exact ⟨key, hstart, hwaits, hreleased⟩
    · rintro ⟨key, hstart, hwaits, hreleased⟩
      exact ⟨(key, ⟨(start, item), elapsed (events.take start) + wait⟩),
        (mem_pending_after_iff wait events place key _).2 ⟨start, item, hstart, hwaits, rfl⟩,
        hreleased, rfl⟩

/-- Items that wait were scheduled by different events. -/
theorem nodup_items_after (count : Nat) :
    ((after wait (labelled (events.take count))).pending.map (·.2.item)).Nodup := by
  have honce := nodup_after wait (labelled (events.take count))
  apply List.Nodup.map_on _ honce.of_map
  rintro ⟨key, delayed⟩ hleft ⟨other, later⟩ hright hitem
  obtain ⟨start, item, hstart, -, rfl⟩ := (mem_pending_after_iff wait events count _ _).1 hleft
  obtain ⟨start', item', hstart', -, rfl⟩ := (mem_pending_after_iff wait events count _ _).1 hright
  cases hitem
  rw [hstart] at hstart'
  cases hstart'
  rfl

theorem nodup_handed (place : Nat) : (handed wait (labelled events) place).Nodup := by
  rw [handed, take_labelled]
  split
  · exact List.nodup_nil
  · exact (step_sublist _ _).nodup (nodup_items_after wait events place)

/-- Over a whole run no item is handed over twice. -/
theorem nodup_handedAll :
    ((List.range events.length).flatMap (handed wait (labelled events))).Nodup := by
  rw [List.nodup_flatMap]
  refine ⟨fun place _ => nodup_handed wait events place, ?_⟩
  apply List.nodup_range.imp
  -- What two events hand over would have been released twice.
  rintro place other hne ⟨start, item⟩ hfirst hsecond
  obtain ⟨key, hstart, hwaits, hreleased⟩ := (mem_handed_iff wait events start place item).1 hfirst
  obtain ⟨key', hstart', hwaits', hreleased'⟩ :=
    (mem_handed_iff wait events start other item).1 hsecond
  rw [hstart] at hstart'
  cases hstart'
  exact hne (eq_of_released hwaits hreleased hwaits' hreleased')

end

/-! ## Labels do not matter -/

section

variable (f : α → β)

/-- The same debouncer with other items. -/
def map (debouncer : Debouncer α) : Debouncer β where
  wait := debouncer.wait
  now := debouncer.now
  isRunning := debouncer.isRunning
  pending := debouncer.pending.map fun entry => (entry.1, entry.2.map f)
  isNotified := debouncer.isNotified
  worker := debouncer.worker

theorem pending?_map (debouncer : Debouncer α) (key : String) :
    (debouncer.map f).pending? key = (debouncer.pending? key).map f := by
  have hvalue := KeyedList.value?_map (Delayed.map f) debouncer.pending key
  rw [pending?, pending?, map, hvalue, Option.map_map, Option.map_map]
  rfl

theorem cancel_map (debouncer : Debouncer α) (key : String) :
    (debouncer.map f).cancel key = ((debouncer.cancel key).1, (debouncer.cancel key).2.map f) := by
  have hremove := KeyedList.remove_map (Delayed.map f) debouncer.pending key
  simp only [cancel, isPending, pending?_map, Option.isSome_map]
  rw [map, map, hremove]

theorem nextDue?_map (debouncer : Debouncer α) :
    (debouncer.map f).nextDue? = debouncer.nextDue? := by
  rw [nextDue?, map, List.map_map]
  rfl

theorem move_map (debouncer : Debouncer α) (move : Move) :
    (debouncer.map f).move move =
      ((debouncer.move move).1.map f, (debouncer.move move).2.map f) := by
  cases move with
  | look =>
    have hnext := nextDue?_map f debouncer
    rw [Debouncer.move, look, hnext]
    rfl
  | pass duration => rfl
  | wake signal =>
    cases signal with
    | stopped | scheduled => rfl
    | slept =>
      rw [Debouncer.move, Debouncer.move, wake_slept_eq, wake_slept_eq]
      simp only [map, List.filter_map, List.map_map]
      rfl

/-- Events with other items act on a debouncer with other items alike. -/
theorem step_map (debouncer : Debouncer α) (event : Event α) :
    (debouncer.map f).step (event.map f) =
      ((debouncer.step event).1.map f, (debouncer.step event).2.map f) := by
  cases event with
  | schedule key item =>
    have hremove := KeyedList.remove_map (Delayed.map f) debouncer.pending key
    simp only [step, Event.map, schedule, map, hremove, List.map_nil, List.map_append,
      List.map_singleton]
    rfl
  | flush key =>
    simp only [step, Event.map, flush, pending?_map, cancel_map]
    cases debouncer.pending? key <;> rfl
  | flushAll => simp [step, Event.map, flushAll, map, Delayed.map]
  | cancel key => simp [step, Event.map, cancel_map]
  | move move => exact move_map f debouncer move

theorem after_map (wait : Nat) (events : List (Event α)) :
    after wait (events.map (·.map f)) = (after wait events).map f := by
  induction events using List.reverseRecOn with
  | nil => rfl
  | append_singleton events event ih =>
    rw [List.map_append, List.map_singleton, after_concat, ih, step_map, after_concat]

end

/-- Without its labels a labelled run is the run itself. -/
theorem map_labelled (events : List (Event α)) :
    (labelled events).map (·.map Prod.snd) = events := by
  apply List.ext_getElem?
  intro place
  rw [List.getElem?_map, getElem?_labelled, Option.map_map]
  have hself : ((·.map Prod.snd) ∘ (·.map (place, ·)) : Event α → Event α) = id := by
    funext event
    cases event <;> rfl
  rw [hself, Option.map_id, id]

theorem handed_map (f : α → β) (wait : Nat) (events : List (Event α)) (place : Nat) :
    handed wait (events.map (·.map f)) place = (handed wait events place).map f := by
  rw [handed, handed, List.getElem?_map, ← List.map_take, after_map]
  cases events[place]? with
  | none => rfl
  | some event => simp [step_map]

/-- Without labels it is the same debouncer. -/
theorem map_after_labelled (wait : Nat) (events : List (Event α)) (count : Nat) :
    (after wait (labelled (events.take count))).map Prod.snd = after wait (events.take count) := by
  rw [← after_map, map_labelled]

/-- A key is waiting if an item of it was scheduled and nothing has ended its waiting. -/
theorem isPending_after_iff (wait : Nat) (events : List (Event α)) (count : Nat) (key : String) :
    (after wait (events.take count)).isPending key = true ↔
      ∃ start item, events[start]? = some (.schedule key item) ∧
        WaitsUntil wait events key start count := by
  -- With labels every item that waits is told apart, without them it is under the same key.
  have hpending : ∀ delayed,
      (after wait (labelled (events.take count))).pending.value? key = some delayed ↔
        (key, delayed) ∈ (after wait (labelled (events.take count))).pending :=
    fun _ => KeyedList.value?_eq_some_iff (nodup_after wait _)
  rw [← map_after_labelled, isPending, pending?_map, pending?, Option.isSome_map,
    Option.isSome_map, Option.isSome_iff_exists]
  simp only [hpending, mem_pending_after_iff]
  constructor
  · rintro ⟨delayed, start, item, hstart, hwaits, -⟩
    exact ⟨start, item, hstart, hwaits⟩
  · rintro ⟨start, item, hstart, hwaits⟩
    exact ⟨_, start, item, hstart, hwaits, rfl⟩

/-- An item that waits is there with the time at which it is due. -/
theorem mem_pending_of_waits {wait : Nat} {events : List (Event α)} {start count : Nat}
    {key : String} {item : α} (hstart : events[start]? = some (.schedule key item))
    (hwaits : WaitsUntil wait events key start count) :
    (key, ⟨item, elapsed (events.take start) + wait⟩) ∈
      (after wait (events.take count)).pending := by
  have hlabelled := (mem_pending_after_iff wait events count key _).2
    ⟨start, item, hstart, hwaits, rfl⟩
  rw [← map_after_labelled]
  exact List.mem_map.2 ⟨_, hlabelled, rfl⟩

/-! ## The whole run -/

/-- Over a run of a debouncer with its worker exactly the latest item of each key is handed over. An
item that the event at `start` schedules is due when the waiting time has passed since. It waits
from that event on to the first that releases or drops it. -/
structure HandsOverLatest (timer : Timer) (latency wait : Nat) (events : List (Event α)) :
    Prop where
  /-- At most one item waits under a key. -/
  one_each : ∀ count, ((after wait (events.take count)).pending.map (·.1)).Nodup
  /-- No item is handed over twice. -/
  once : ((List.range events.length).flatMap (handed wait (labelled events))).Nodup
  /-- Labels do not matter. -/
  unlabelled : ∀ place,
    (handed wait (labelled events) place).map Prod.snd = handed wait events place
  /-- An event hands over what waits until it and is released by it. -/
  exactly : ∀ start place item, (start, item) ∈ handed wait (labelled events) place ↔
    ∃ key, events[start]? = some (.schedule key item) ∧
      WaitsUntil wait events key start place ∧ ReleasedAt wait events key start place
  /-- The worker hands an item over when it is due, but for the latency, and never before. -/
  in_time : ∀ start place item, (start, item) ∈ handed wait (labelled events) place →
    events[place]? = some (.move (.wake .slept)) →
      elapsed (events.take start) + wait ≤ elapsed (events.take place) ∧
        elapsed (events.take place) ≤ elapsed (events.take start) + wait + latency
  /-- No item waits for longer, and none that is due waits where the worker has nothing to do. -/
  not_late : ∀ start count key item, events[start]? = some (.schedule key item) →
    WaitsUntil wait events key start count →
      elapsed (events.take count) ≤ elapsed (events.take start) + wait + latency ∧
        ((after wait (events.take count)).isIdle timer = true →
          elapsed (events.take count) < elapsed (events.take start) + wait + latency)
  /-- Time can always go on, and the worker comes to have nothing to do. -/
  goes_on : ∀ duration, ∃ made : List Move, IsRun timer wait (events ++ made.map .move) ∧
    elapsed (events ++ made.map .move) = elapsed events + duration ∧
      (after wait events).stepAll (made.map .move) =
        (after wait events).advanceBy timer duration ∧
      (after wait (events ++ made.map .move)).isIdle timer = true
  /-- A flush and a cancellation tell whether an item of the key waits. -/
  replies : ∀ count key,
    (((after wait (events.take count)).flush key).1.isSome = true ↔
      ∃ start item, events[start]? = some (.schedule key item) ∧
        WaitsUntil wait events key start count) ∧
    (((after wait (events.take count)).cancel key).1 = true ↔
      ∃ start item, events[start]? = some (.schedule key item) ∧
        WaitsUntil wait events key start count)

/-- Whatever calls are made and whenever the worker goes on, every item that is not replaced or
cancelled is handed over, once, when its key is flushed or when it is due. -/
theorem handed_exactly {timer : Timer} {latency : Nat} (htimer : timer.IsTimely latency)
    (wait : Nat) (events : List (Event α)) (hrun : IsRun timer wait events) :
    HandsOverLatest timer latency wait events := by
  have hnotLate : ∀ start count key item, events[start]? = some (.schedule key item) →
      WaitsUntil wait events key start count →
        elapsed (events.take count) ≤ elapsed (events.take start) + wait + latency ∧
          ((after wait (events.take count)).isIdle timer = true →
            elapsed (events.take count) < elapsed (events.take start) + wait + latency) := by
    intro start count key item hstart hwaits
    have hattentive := (hrun.take count).attentive htimer
    have hentry := mem_pending_of_waits hstart hwaits
    have hlate := hattentive.in_time _ hentry
    rw [(clock_after wait (events.take count)).1] at hlate
    refine ⟨hlate, fun hidle => ?_⟩
    have hearlier := hattentive.lt_of_isIdle htimer hidle hentry
    rw [(clock_after wait (events.take count)).1] at hearlier
    exact hearlier
  constructor
  case one_each => exact fun count => nodup_after wait _
  case once => exact nodup_handedAll wait events
  case unlabelled =>
    intro place
    rw [← handed_map, map_labelled]
  case exactly => exact fun start place item => mem_handed_iff wait events start place item
  case in_time =>
    intro start place item hhanded hwoken
    obtain ⟨key, hstart, hwaits, hreleased⟩ :=
      (mem_handed_iff wait events start place item).1 hhanded
    exact ⟨(releasedAt_iff hwoken).1 hreleased, (hnotLate start place key item hstart hwaits).1⟩
  case not_late => exact hnotLate
  case goes_on =>
    intro duration
    obtain ⟨made, hallowed, hmade, hnow, hidle⟩ :=
      exists_moves_advanceBy htimer (hrun.attentive htimer) duration
    have hafter : after wait (events ++ made.map .move) =
        ((after wait events).advanceBy timer duration).2 := by
      rw [after_append, hmade]
    have hclock := (clock_after wait (events ++ made.map .move)).1
    rw [hafter, hnow, (clock_after wait events).1] at hclock
    exact ⟨made, isRun_append.2 ⟨hrun, hallowed⟩, hclock.symm, hmade, hafter ▸ hidle⟩
  case replies =>
    intro count key
    have hpending := isPending_after_iff wait events count key
    exact ⟨hpending, hpending⟩

/-- An item is replaced while the worker sleeps for it. Of those scheduled with the new one, one is
cancelled, and one is flushed. -/
def rescheduled : List (Event Nat) :=
  [.schedule "a" 1, .move .look, .move (.wake .scheduled), .move .look, .move (.pass 100),
    .schedule "a" 2, .schedule "b" 3, .schedule "c" 4, .cancel "b", .move (.wake .scheduled),
    .move .look, .flush "c", .move (.pass 200), .move (.wake .slept)]

/-- Of the four items the flush hands over the last, and the worker the second, which has taken
the place of the first. -/
theorem handed_exactly_rescheduled :
    Timer.punctual.IsTimely 0 ∧ IsRun .punctual 200 rescheduled ∧
      handed 200 rescheduled 11 = [4] ∧ handed 200 rescheduled 13 = [2] ∧
      HandsOverLatest .punctual 0 200 rescheduled := by
  have hrun : IsRun .punctual 200 rescheduled := by
    rw [IsRun]
    decide
  exact ⟨Timer.isTimely_punctual, hrun, by decide, by decide,
    handed_exactly Timer.isTimely_punctual 200 rescheduled hrun⟩

end Debouncer

end SymbolIndex
