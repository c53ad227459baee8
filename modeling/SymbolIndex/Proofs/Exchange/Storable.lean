import SymbolIndex.Exchange.Forms
import SymbolIndex.Proofs.Exchange.MessagePack
import SymbolIndex.Proofs.Exchange.Record

/-!
# Stored values are read back

A value is storable if its positions fit in 32-bit words and no text or list in it is too long for
a length of 32 bits. `StoredAs` says all that a round trip needs to know of a storable value: the
bytes keep its datum, and the datum is read back exactly where as many lists and maps may be opened
as the value has around each other, not counting the maps that name an alternative.
-/

namespace SymbolIndex

open SymbolIndex.Record

/-- A text whose length fits in 32 bits. -/
def IsShort (text : String) : Prop :=
  text.utf8ByteSize < UInt32.size

instance (text : String) : Decidable (IsShort text) :=
  inferInstanceAs (Decidable (text.utf8ByteSize < UInt32.size))

/-- A datum is how a value is stored, with `depth` lists and maps around each other that count. -/
structure StoredAs {α : Type} (read : Nat → Datum → Option α) (value : α) (datum : Datum)
    (depth : Nat) : Prop where
  isKept : MessagePack.IsKept datum
  nesting_le : datum.nesting ≤ 2 * depth
  read_eq : ∀ room, read room datum = if depth ≤ room then some value else none

namespace MessagePack

theorem isKept_word32 (word : UInt32) : IsKept (.natural word.toNat) :=
  Nat.lt_trans word.toNat_lt_size (by decide)

theorem isKept_word64 (word : UInt64) : IsKept (.natural word.toNat) :=
  word.toNat_lt_size

theorem isKept_optionalText {value : Option String} (h : ∀ text ∈ value, IsShort text) :
    IsKept (.optionalText value) := by
  cases value with
  | none => trivial
  | some text => exact h text rfl

theorem areKept_iff {items : List Datum} : AreKept items ↔ ∀ item ∈ items, IsKept item := by
  induction items with
  | nil => simp [AreKept]
  | cons item items ih => simp [AreKept, ih]

/-- A record is kept if its names are short and its values are kept. -/
theorem isKept_record (names : List String) {fields : List (String × Datum)}
    (hnames : fields.map Prod.fst = names) (hlength : names.length < UInt32.size)
    (hshort : ∀ name ∈ names, IsShort name) (hvalues : ∀ field ∈ fields, IsKept field.2) :
    IsKept (.record fields) := by
  subst hnames
  rw [List.length_map] at hlength
  refine ⟨by rwa [List.length_map], ?_⟩
  clear hlength
  induction fields with
  | nil => trivial
  | cons field fields ih =>
    simp only [List.map_cons, List.forall_mem_cons] at hshort hvalues
    exact ⟨hshort.1, hvalues.1, ih hvalues.2 hshort.2⟩

end MessagePack

namespace Datum

theorem nestingAll_le_iff {items : List Datum} {depth : Nat} :
    nestingAll items ≤ depth ↔ ∀ item ∈ items, item.nesting ≤ depth := by
  induction items with
  | nil => simp [nestingAll]
  | cons item items ih => rw [nestingAll, Nat.max_le, ih, List.forall_mem_cons]

theorem nesting_optionalText (value : Option String) : (optionalText value).nesting = 0 := by
  cases value <;> simp [optionalText, nesting]

/-- A record nests one level deeper than its values. -/
theorem nesting_record_le {fields : List (String × Datum)} {depth : Nat}
    (h : ∀ field ∈ fields, field.2.nesting ≤ depth) : (record fields).nesting ≤ depth + 1 := by
  rw [record, nesting, Nat.add_comm]
  apply Nat.succ_le_succ
  induction fields with
  | nil => exact Nat.zero_le _
  | cons field fields ih =>
    obtain ⟨hfield, hfields⟩ := List.forall_mem_cons.1 h
    simp only [List.map_cons, nestingEntries, Nat.max_le]
    exact ⟨⟨Nat.zero_le _, hfield⟩, ih hfields⟩

end Datum

/-! ### Missing values and lists -/

namespace StoredAs

variable {α : Type} {read : Nat → Datum → Option α} {toDatum : α → Datum} {depth : Nat}

/-- A missing value is stored as null and needs nothing to be opened. -/
theorem optional {value : Option α}
    (h : ∀ present ∈ value, StoredAs read present (toDatum present) depth)
    (hnull : ∀ present, toDatum present ≠ .null) :
    StoredAs (fun room datum => optional? (read room) (some datum)) value
      ((value.map toDatum).getD .null) (if value.isSome then depth else 0) := by
  cases value with
  | none =>
    constructor
    · trivial
    · exact Nat.le_refl 0
    · simp [optional?]
  | some present =>
    obtain ⟨hkept, hnesting, hread⟩ := h present rfl
    refine ⟨hkept, hnesting, ?_⟩
    intro room
    have hpresent : optional? (read room) (some (toDatum present)) =
        (read room (toDatum present)).map some := by
      have hne := hnull present
      cases hdatum : toDatum present <;> simp_all [optional?]
    simp only [Option.map_some, Option.getD_some, Option.isSome_some, if_true, hpresent, hread]
    split <;> rfl

/-- A list is stored as the list of its items. -/
theorem list {values : List α} (hlength : values.length < UInt32.size)
    (h : ∀ value ∈ values, StoredAs read value (toDatum value) depth) :
    StoredAs (listOf? read) values (.list (values.map toDatum))
      (1 + if values.isEmpty then 0 else depth) where
  isKept := by
    refine ⟨by rwa [List.length_map], MessagePack.areKept_iff.2 ?_⟩
    rw [List.forall_mem_map]
    exact fun value hvalue => (h value hvalue).isKept
  nesting_le := by
    have hall : Datum.nestingAll (values.map toDatum) ≤
        2 * if values.isEmpty then 0 else depth := by
      rw [Datum.nestingAll_le_iff, List.forall_mem_map]
      intro value hvalue
      rw [if_neg (by simpa using List.ne_nil_of_mem hvalue)]
      exact (h value hvalue).nesting_le
    rw [Datum.nesting]
    omega
  read_eq := by
    intro room
    cases room with
    | zero => simp [listOf?, items?]
    | succ room =>
      have hroom : listOf? read (room + 1) (.list (values.map toDatum)) =
          values.mapM fun value => read room (toDatum value) := by
        simp [listOf?, items?, Function.comp_def]
      rw [hroom]
      cases values with
      | nil => simp
      | cons value rest =>
        simp only [List.isEmpty_cons, Bool.false_eq_true, if_false]
        by_cases hdepth : depth ≤ room
        · have hread : ∀ other ∈ value :: rest, read room (toDatum other) = some other :=
            fun other hother => by rw [(h other hother).read_eq, if_pos hdepth]
          rw [mapM_eq_some_map hread, List.map_id', if_pos (by omega)]
        · have hread := (h value List.mem_cons_self).read_eq room
          rw [if_neg hdepth] at hread
          rw [List.mapM_cons, hread, if_neg (by omega)]
          rfl

end StoredAs

/-- A record is stored if its values are and it is read back from them. The names of the fields are
given apart, so that they are looked at without the values. -/
theorem StoredAs.record {α : Type} {read : Nat → Datum → Option α} {value : α} {depth : Nat}
    (names : List String) {fields : List (String × Datum)} (hnames : fields.map Prod.fst = names)
    (hlength : names.length < UInt32.size) (hshort : ∀ name ∈ names, IsShort name)
    (hvalues : ∀ field ∈ fields,
      MessagePack.IsKept field.2 ∧ field.2.nesting ≤ 2 * depth)
    (hzero : read 0 (.record fields) = none)
    (hread : ∀ room, read (room + 1) (.record fields) = if depth ≤ room then some value else none) :
    StoredAs read value (.record fields) (depth + 1) where
  isKept := MessagePack.isKept_record names hnames hlength hshort fun field hmem =>
    (hvalues field hmem).1
  nesting_le := by
    have hle := Datum.nesting_record_le fun field hmem => (hvalues field hmem).2
    omega
  read_eq := by
    intro room
    cases room with
    | zero => rw [hzero, if_neg (by omega)]
    | succ room => simp only [hread, Nat.add_le_add_iff_right]

/-! ### Positions -/

namespace Position

structure IsStorable (position : Position) : Prop where
  line : position.line < UInt32.size
  character : position.character < UInt32.size

theorem storedAs {position : Position} (h : position.IsStorable) :
    StoredAs (ofDatum? .compact) position position.toDatum 1 := by
  have hline : position.line < UInt64.size := Nat.lt_trans h.line (by decide)
  have hcharacter : position.character < UInt64.size := Nat.lt_trans h.character (by decide)
  apply StoredAs.record ["line", "character"] rfl (by decide) (by decide) ?_ rfl
  · intro room
    have hfields := fields?_record
      [("line", .natural position.line), ("character", .natural position.character)]
      (by simp) .compact room
    simp only [List.map_cons, List.map_nil] at hfields
    simp [ofDatum?, hfields, naturalBelow?_natural h.line, naturalBelow?_natural h.character]
  · simp [MessagePack.IsKept, Datum.nesting, hline, hcharacter]

end Position

namespace Range

structure IsStorable (range : Range) : Prop where
  start : range.start.IsStorable
  stop : range.stop.IsStorable

theorem storedAs {range : Range} (h : range.IsStorable) :
    StoredAs (ofDatum? .compact) range range.toDatum 2 := by
  obtain ⟨hkeptStart, hnestingStart, hreadStart⟩ := Position.storedAs h.start
  obtain ⟨hkeptStop, hnestingStop, hreadStop⟩ := Position.storedAs h.stop
  apply StoredAs.record ["start", "end"] rfl (by decide) (by decide) ?_ rfl
  · intro room
    have hfields := fields?_record
      [("start", range.start.toDatum), ("end", range.stop.toDatum)] (by simp) .compact room
    simp only [List.map_cons, List.map_nil] at hfields
    by_cases hroom : 1 ≤ room
    · simp [ofDatum?, hfields, hreadStart, hreadStop, hroom]
    · simp [ofDatum?, hfields, hreadStart, hroom]
  · simp [hkeptStart, hkeptStop, hnestingStart, hnestingStop]

end Range

namespace Location

structure IsStorable (location : Location) : Prop where
  uri : IsShort location.uri
  range : location.range.IsStorable

theorem storedAs {location : Location} (h : location.IsStorable) :
    StoredAs (ofDatum? .compact) location location.toDatum 3 := by
  obtain ⟨hkept, hnesting, hread⟩ := Range.storedAs h.range
  have huri : MessagePack.IsKept (.text location.uri) := h.uri
  apply StoredAs.record ["uri", "range"] rfl (by decide) (by decide) ?_ rfl
  · intro room
    have hfields := fields?_record
      [("uri", .text location.uri), ("range", location.range.toDatum)] (by simp) .compact room
    simp only [List.map_cons, List.map_nil] at hfields
    by_cases hroom : 2 ≤ room
    · simp [ofDatum?, hfields, text?, hread, hroom]
    · simp [ofDatum?, hfields, text?, hread, hroom]
  · simp [Datum.nesting, huri, hkept, hnesting]

end Location

end SymbolIndex
