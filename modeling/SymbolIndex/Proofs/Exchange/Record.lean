import Mathlib.Data.List.Nodup
import SymbolIndex.Exchange.Record
import SymbolIndex.Proofs.SortedDistinct

/-!
# Records are read back

The forms that values take in a datum, and that each is read back as the value it stands for: a
record by its fields in order (`fields?_record`), an alternative by its name (`named?_name`), a
list by its items (`listOf?_map`), a missing value as missing (`optional?_map`).
-/

namespace SymbolIndex.Record

open Function

variable {α β : Type}

/-! ### Lists -/

theorem mapM_eq_some_map {f : α → Option β} {g : α → β} {items : List α}
    (h : ∀ item ∈ items, f item = some (g item)) : items.mapM f = some (items.map g) := by
  induction items with
  | nil => rfl
  | cons item items ih =>
    obtain ⟨hitem, hitems⟩ := List.forall_mem_cons.1 h
    simp [hitem, ih hitems]

/-- Items filed under keys of their places are found under them. -/
theorem lookup_mapIdx {key : Nat → Nat} (hkey : Injective key) (items : List α) (value : α → β)
    (place : Nat) :
    (items.mapIdx fun index item => (key index, value item)).lookup (key place) =
      items[place]?.map value := by
  induction items generalizing key place with
  | nil => rfl
  | cons item items ih =>
    rw [List.mapIdx_cons]
    cases place with
    | zero => simp
    | succ place =>
      have hne : (key (place + 1) == key 0) = false := by
        rw [beq_eq_false_iff_ne]
        intro heq
        have hzero := hkey heq
        omega
      have hshift : Injective fun index => key (index + 1) :=
        fun _ _ heq => Nat.succ_inj.1 (hkey heq)
      rw [List.lookup_cons, hne]
      simpa using ih hshift place

/-! ### Fields -/

/-- The values of the fields of a record, each with its place. -/
def placed (fields : List (String × Datum)) : List (Nat × Datum) :=
  fields.mapIdx fun place field => (place, field.2)

theorem map_fst_placed (fields : List (String × Datum)) :
    (placed fields).map (·.1) = List.range fields.length := by
  apply List.ext_getElem <;> simp [placed]

/-- Every place has the value of its field. -/
theorem map_lookup_placed (fields : List (String × Datum)) :
    ((List.range fields.length).map fun place => (placed fields).lookup place) =
      fields.map fun field => some field.2 := by
  apply List.ext_getElem
  · simp
  · intro place _ hright
    have hplace : place < fields.length := by simpa using hright
    have hfound := lookup_mapIdx injective_id fields Prod.snd place
    simp only [id] at hfound
    simp [placed, hfound, hplace]

section

variable {fields : List (String × Datum)} (hnodup : (fields.map Prod.fst).Nodup)
include hnodup

theorem map_idxOf?_eq_placed :
    (fields.map fun field => ((fields.map Prod.fst).idxOf? field.1, field.2)) =
      (placed fields).map fun entry => (some entry.1, entry.2) := by
  apply List.ext_getElem
  · simp [placed]
  · intro place hleft _
    have hplace : place < (fields.map Prod.fst).length := by simpa using hleft
    have hidx : (fields.map Prod.fst).idxOf? (fields.map Prod.fst)[place] = some place := by
      rw [List.idxOf?_eq_some_iff]
      refine ⟨hplace, rfl, ?_⟩
      intro other hother heq
      have hsame : other = place := hnodup.getElem_inj_iff.1 heq
      omega
    rw [List.getElem_map] at hidx
    simp [placed, hidx]

/-- The fields of a record are found under their names, in their order. -/
theorem fieldsOfMap?_record (style : Style) (room : Nat) :
    fieldsOfMap? style (fields.map Prod.fst) room
        (fields.map fun field => (.text field.1, field.2)) =
      some (fields.map fun field => some field.2) := by
  have hplaced : (fields.map fun field => (Datum.text field.1, field.2)).mapM
      (fun entry => (keyPlace? (fields.map Prod.fst) entry.1).map (·, entry.2)) =
        some ((placed fields).map fun entry => (some entry.1, entry.2)) := by
    rw [List.mapM_map, ← map_idxOf?_eq_placed hnodup]
    apply mapM_eq_some_map
    simp [keyPlace?]
  have hknown : ((placed fields).map fun entry => (some entry.1, entry.2)).filterMap
      (fun entry => entry.1.map (·, entry.2)) = placed fields := by
    simp [List.filterMap_map]
  have hkeys : ((placed fields).map (·.1)).eraseDups.length = (placed fields).length := by
    rw [map_fst_placed, eraseDups_of_nodup List.nodup_range]
    simp [placed]
  have hskipped : ((placed fields).map fun entry => (some entry.1, entry.2)).all
      (fun entry => entry.1.isSome || canSkip style room entry.2) = true := by
    simp
  have hvalues := map_lookup_placed fields
  unfold fieldsOfMap?
  simp [hplaced, hknown, hkeys, hskipped, hvalues]

end

/-- The fields of a record are read back in their order, if one more map may be opened. -/
theorem fields?_record (fields : List (String × Datum)) (hnodup : (fields.map Prod.fst).Nodup)
    (style : Style) (room : Nat) :
    fields? style (fields.map Prod.fst) (room + 1) (.record fields) =
      some (fields.map fun field => some field.2) :=
  fieldsOfMap?_record hnodup style room

theorem fields?_record_zero (style : Style) (names : List String)
    (fields : List (String × Datum)) : fields? style names 0 (.record fields) = none := by
  rfl

/-! ### Words -/

theorem naturalBelow?_natural {limit value : Nat} (h : value < limit) :
    naturalBelow? limit (.natural value) = some value := by
  simp [naturalBelow?, h]

@[simp]
theorem word32?_natural (word : UInt32) : word32? (.natural word.toNat) = some word := by
  simp [word32?, naturalBelow?_natural word.toNat_lt_size]

@[simp]
theorem word64?_natural (word : UInt64) : word64? (.natural word.toNat) = some word := by
  simp [word64?, naturalBelow?_natural word.toNat_lt_size]

/-! ### Missing values -/

theorem optional?_optionalText (value : Option String) :
    optional? text? (some (.optionalText value)) = some value := by
  cases value <;> rfl

/-! ### Alternatives -/

section

variable {all : List α} {name : α → String} {value : α}

/-- An alternative is found by its name, if no other one has it. -/
theorem named?_name (style : Style) (hmem : value ∈ all) (hnodup : (all.map name).Nodup) :
    named? style all name (.text (name value)) = some value := by
  have hfound : (all.find? (name · == name value)).isSome := by
    simp only [List.find?_isSome, beq_iff_eq]
    exact ⟨value, hmem, rfl⟩
  obtain ⟨found, hfind⟩ := Option.isSome_iff_exists.1 hfound
  have hname : name found = name value := by
    simpa using List.find?_some hfind
  have hsame : found = value :=
    List.inj_on_of_nodup_map hnodup (List.mem_of_find?_eq_some hfind) hmem hname
  rw [named?, hfind, hsame]

theorem plainVariant?_name (style : Style) (hmem : value ∈ all) (hnodup : (all.map name).Nodup)
    (room : Nat) : plainVariant? style all name room (.text (name value)) = some value :=
  named?_name style hmem hnodup

end

/-- An alternative with content is read back, if there is room for its map where that counts. -/
theorem variant?_record {style : Style} {names : List String} {name : String} {room inner : Nat}
    (hmem : name ∈ names) (hnodup : names.Nodup) (hroom : roomInside? style room = some inner)
    (content : Datum) :
    variant? style names room (.record [(name, content)]) = some (name, content) := by
  have hdistinct : (names.map id).Nodup := by simpa using hnodup
  have hnamed : named? style names id (.text name) = some name := named?_name style hmem hdistinct
  simp [variant?, hroom, Datum.record, hnamed]

end SymbolIndex.Record
