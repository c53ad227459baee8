import Mathlib.Data.List.Induction
import SymbolIndex.Proofs.NameIndex
import SymbolIndex.Proofs.SortedDistinct

/-!
# A name index as a multimap

Every change of an index files items under keys or takes items away from keys.
After any changes the index holds what was filed and not taken away since: its
keys are those of such filings, each once and in increasing order, and the items
under a key stand in the order in which they were filed.  One change keeps this,
so every history of changes does.
-/

namespace SymbolIndex.NameIndex

open SymbolIndex.Text

variable {α : Type}

/-! ## Histories -/

inductive Change (α : Type) where
  | add (keys : List String) (item : α)
  | addAll (keysOf : α → List String) (items : List α)
  | remove (keys : List String) (same : α → Bool)

namespace Change

def applyTo (index : NameIndex α) : Change α → NameIndex α
  | .add keys item => index.add keys item
  | .addAll keysOf items => index.addAll keysOf items
  | .remove keys same => index.remove keys same

/-- The items that a change files, with their keys and in order. -/
def filings : Change α → List (String × α)
  | .add keys item => keys.map fun key => (key, item)
  | .addAll keysOf items => items.flatMap fun item => (keysOf item).map fun key => (key, item)
  | .remove _ _ => []

/-- Whether a change takes away an item that is filed under a key. -/
def takes : Change α → String × α → Bool
  | .add _ _, _ => false
  | .addAll _ _, _ => false
  | .remove keys same, (key, item) => keys.contains key && same item

end Change

def afterAll (changes : List (Change α)) : NameIndex α :=
  changes.foldl Change.applyTo empty

/-- What was filed and not taken away since, in the order of filing. -/
def kept : List (Change α) → List (String × α)
  | [] => []
  | change :: later =>
    (change.filings.filter fun filing => !later.any (·.takes filing)) ++ kept later

/-- The items that are filed under a key. -/
def filedUnder (filings : List (String × α)) (key : String) : List α :=
  (filings.filter fun filing => filing.1 == key).map (·.2)

/-- A last change takes away from what was kept, and files. -/
theorem kept_concat (changes : List (Change α)) (change : Change α) :
    kept (changes ++ [change]) =
      ((kept changes).filter fun filing => !change.takes filing) ++ change.filings := by
  induction changes with
  | nil => simp [kept]
  | cons first later ih =>
      rw [List.cons_append, kept, kept, ih, List.filter_append, List.filter_filter,
        List.append_assoc]
      simp only [List.any_append, List.any_cons, List.any_nil, Bool.or_false, Bool.not_or,
        Bool.and_comm]

/-! ## One change -/

/-- The index holds filings: its keys increase, each has some items, and they are those filed
under it. -/
structure Holds (index : NameIndex α) (filings : List (String × α)) : Prop where
  ordered : index.IsOrdered
  filled : [] ∉ index.entries.map (·.2)
  exact : ∀ key, index.under key = filedUnder filings key

theorem holds_empty : (empty : NameIndex α).Holds [] where
  ordered := isOrdered_empty
  filled := List.not_mem_nil
  exact _ := rfl

/-- No entry is left without items. -/
theorem filled_insertInto {entries : List (String × List α)} (key : String) (item : α)
    (hfilled : [] ∉ entries.map (·.2)) : [] ∉ (insertInto key item entries).map (·.2) := by
  induction entries with
  | nil => simp [insertInto]
  | cons entry rest ih =>
      rw [List.map_cons, List.mem_cons, not_or] at hfilled
      rw [insertInto]
      split
      · simp [hfilled]
      · split
        · simp [hfilled]
        · simp [hfilled, ih hfilled.2]

theorem filled_eraseFrom {entries : List (String × List α)} (key : String) (same : α → Bool)
    (hfilled : [] ∉ entries.map (·.2)) : [] ∉ (eraseFrom key same entries).map (·.2) := by
  induction entries with
  | nil => simp [eraseFrom]
  | cons entry rest ih =>
      rw [List.map_cons, List.mem_cons, not_or] at hfilled
      rw [eraseFrom]
      split
      · split
        · exact hfilled.2
        · rename_i hkept
          simp [hfilled, Ne.symm hkept]
      · simp [hfilled, ih hfilled.2]

theorem filedUnder_append (front back : List (String × α)) (key : String) :
    filedUnder (front ++ back) key = filedUnder front key ++ filedUnder back key := by
  rw [filedUnder, List.filter_append, List.map_append]
  rfl

/-- Filing an item under a key adds one filing. -/
theorem Holds.insertInto {index : NameIndex α} {filings : List (String × α)}
    (hholds : index.Holds filings) (key : String) (item : α) :
    (⟨NameIndex.insertInto key item index.entries⟩ : NameIndex α).Holds
      (filings ++ [(key, item)]) where
  ordered := Increasing.insertInto hholds.ordered key item
  filled := filled_insertInto key item hholds.filled
  exact other := by
    rw [under, itemsUnder_insertInto hholds.ordered, filedUnder_append, ← hholds.exact other]
    split
    · rename_i heq
      simp [under, filedUnder, heq]
    · rename_i hne
      simp [under, filedUnder, Ne.symm hne]

theorem Holds.add {index : NameIndex α} {filings : List (String × α)}
    (hholds : index.Holds filings) (keys : List String) (item : α) :
    (index.add keys item).Holds (filings ++ keys.map fun key => (key, item)) := by
  induction keys generalizing index filings with
  | nil =>
      rw [List.map_nil, List.append_nil]
      exact hholds
  | cons key rest ih =>
      rw [List.map_cons, List.append_cons]
      exact ih (hholds.insertInto key item)

/-- Adding items files each under all of its keys, one after the other. -/
theorem Holds.addAll {index : NameIndex α} {filings : List (String × α)}
    (hholds : index.Holds filings) (keysOf : α → List String) (items : List α) :
    (index.addAll keysOf items).Holds
      (filings ++ items.flatMap fun item => (keysOf item).map fun key => (key, item)) := by
  induction items generalizing index filings with
  | nil =>
      rw [List.flatMap_nil, List.append_nil]
      exact hholds
  | cons item rest ih =>
      rw [List.flatMap_cons, ← List.append_assoc]
      exact ih (hholds.add (keysOf item) item)

theorem filedUnder_filter (filings : List (String × α)) (key other : String)
    (same : α → Bool) :
    filedUnder (filings.filter fun filing => !(filing.1 == key && same filing.2)) other =
      if other = key then (filedUnder filings other).filter fun item => !same item
      else filedUnder filings other := by
  split
  · rename_i heq
    rw [← heq, filedUnder, filedUnder, List.filter_filter, List.filter_map, List.filter_filter]
    congr 1
    apply List.filter_congr
    intro filing _
    rw [Function.comp_apply]
    cases filing.1 == other with
    | true => simp
    | false => simp
  · rename_i hne
    rw [filedUnder, filedUnder, List.filter_filter]
    congr 1
    apply List.filter_congr
    intro filing _
    by_cases hother : filing.1 = other
    · simp [hother, hne]
    · simp [hother]

/-- Taking items from under a key drops their filings. -/
theorem Holds.eraseFrom {index : NameIndex α} {filings : List (String × α)}
    (hholds : index.Holds filings) (key : String) (same : α → Bool) :
    (⟨NameIndex.eraseFrom key same index.entries⟩ : NameIndex α).Holds
      (filings.filter fun filing => !(filing.1 == key && same filing.2)) where
  ordered := Increasing.eraseFrom hholds.ordered key same
  filled := filled_eraseFrom key same hholds.filled
  exact other := by
    rw [under, itemsUnder_eraseFrom hholds.ordered, filedUnder_filter, ← hholds.exact other]
    split
    · rename_i heq
      rw [heq]
      rfl
    · rfl

/-- Removing an item drops its filings under all the keys. -/
theorem Holds.remove {index : NameIndex α} {filings : List (String × α)}
    (hholds : index.Holds filings) (keys : List String) (same : α → Bool) :
    (index.remove keys same).Holds
      (filings.filter fun filing => !(keys.contains filing.1 && same filing.2)) := by
  induction keys generalizing index filings with
  | nil =>
      have hall : (filings.filter fun filing =>
          !(([] : List String).contains filing.1 && same filing.2)) = filings :=
        List.filter_eq_self.2 fun _ _ => rfl
      rw [hall]
      exact hholds
  | cons key rest ih =>
      have hrest := ih (hholds.eraseFrom key same)
      rw [List.filter_filter] at hrest
      have hboth : ∀ filing : String × α,
          (!(rest.contains filing.1 && same filing.2) && !(filing.1 == key && same filing.2)) =
            !((key :: rest).contains filing.1 && same filing.2) := by
        intro filing
        rw [List.contains_cons]
        cases filing.1 == key with
        | true => cases same filing.2 <;> simp
        | false => simp
      simp only [hboth] at hrest
      exact hrest

/-- What one change does to the filings that an index holds. -/
theorem Holds.applyTo {index : NameIndex α} {filings : List (String × α)}
    (hholds : index.Holds filings) (change : Change α) :
    (change.applyTo index).Holds
      ((filings.filter fun filing => !change.takes filing) ++ change.filings) := by
  cases change with
  | add keys item =>
      have hall : (filings.filter fun filing => !(Change.add keys item).takes filing) = filings :=
        List.filter_eq_self.2 fun _ _ => rfl
      rw [hall]
      exact hholds.add keys item
  | addAll keysOf items =>
      have hall : (filings.filter fun filing =>
          !(Change.addAll keysOf items).takes filing) = filings :=
        List.filter_eq_self.2 fun _ _ => rfl
      rw [hall]
      exact hholds.addAll keysOf items
  | remove keys same =>
      rw [Change.filings, List.append_nil]
      exact hholds.remove keys same

/-! ## Any changes -/

theorem holds_afterAll (changes : List (Change α)) : (afterAll changes).Holds (kept changes) := by
  induction changes using List.reverseRecOn with
  | nil => exact holds_empty
  | append_singleton changes change ih =>
      rw [afterAll, List.foldl_append, kept_concat]
      exact ih.applyTo change

/-- An entry of an ordered index is what the index holds under its key. -/
theorem itemsUnder_of_mem {entries : List (String × List α)} (hincreasing : Increasing entries)
    {entry : String × List α} (hmem : entry ∈ entries) : itemsUnder entries entry.1 = entry.2 := by
  induction entries with
  | nil => cases hmem
  | cons first rest ih =>
      obtain ⟨hfirst, hrest⟩ := List.pairwise_cons.1 hincreasing
      rw [itemsUnder_cons]
      rcases List.mem_cons.1 hmem with rfl | hmem
      · exact if_pos rfl
      · rw [if_neg (Ne.symm (Std.ne_of_lt (hfirst entry hmem)))]
        exact ih hrest hmem

theorem filedUnder_ne_nil_iff {filings : List (String × α)} {key : String} :
    filedUnder filings key ≠ [] ↔ key ∈ filings.map (·.1) := by
  rw [filedUnder, Ne, List.map_eq_nil_iff, List.filter_eq_nil_iff, List.mem_map]
  simp

/-- Every key of the index has items. -/
theorem Holds.under_ne_nil_iff {index : NameIndex α} {filings : List (String × α)}
    (hholds : index.Holds filings) {key : String} : index.under key ≠ [] ↔ key ∈ index.keys := by
  constructor
  · intro hsome
    obtain ⟨item, hitem⟩ := List.exists_mem_of_ne_nil _ hsome
    obtain ⟨entry, hentry, rfl, -⟩ := (mem_itemsUnder_iff hholds.ordered _ _).1 hitem
    exact List.mem_map_of_mem hentry
  · intro hkey
    obtain ⟨entry, hentry, rfl⟩ := List.mem_map.1 hkey
    rw [under, itemsUnder_of_mem hholds.ordered hentry]
    intro hempty
    exact hholds.filled (List.mem_map.2 ⟨entry, hentry, hempty⟩)

/-- The keys are those of the filings. -/
theorem Holds.keys_eq {index : NameIndex α} {filings : List (String × α)}
    (hholds : index.Holds filings) : index.keys = sortedDistinct (filings.map (·.1)) := by
  have hincreasing : index.keys.Pairwise (· < ·) := List.pairwise_map.2 hholds.ordered
  have hdistinct := sortedDistinct_increasing (filings.map (·.1))
  have hmem : ∀ key, key ∈ index.keys ↔ key ∈ sortedDistinct (filings.map (·.1)) := by
    intro key
    rw [mem_sortedDistinct, ← hholds.under_ne_nil_iff, hholds.exact, filedUnder_ne_nil_iff]
  refine List.Perm.eq_of_pairwise ?_ hincreasing hdistinct ?_
  · intro left right _ _ hlt hgt
    exact absurd hgt (String.lt_asymm hlt)
  · have hnodup : index.keys.Nodup := hincreasing.imp Std.ne_of_lt
    exact (List.perm_ext_iff_of_nodup hnodup (sortedDistinct_nodup _)).2 hmem

/-- A search by beginning reads the filings key by key. -/
theorem Holds.startingWith_eq {index : NameIndex α} {filings : List (String × α)}
    (hholds : index.Holds filings) (text : String) :
    index.startingWith text =
      (index.keys.filter fun key => (lower text).toList.isPrefixOf key.toList).flatMap
        (filedUnder filings) := by
  rw [startingWith_eq_filter hholds.ordered, keys, List.filter_map, List.flatMap_map,
    List.flatMap_def, List.flatMap_def]
  refine congrArg List.flatten (List.map_congr_left fun entry hentry => ?_)
  have hmem := (List.mem_filter.1 hentry).1
  rw [← hholds.exact, under, itemsUnder_of_mem hholds.ordered hmem]

/-- After any changes the keys of an index increase and none is without items.  What is found is
what was filed under the text's key and not taken away since, in the order of filing.  What is
found by a beginning is this for all keys that have the beginning, in the order of keys. -/
theorem afterAll_multimap (changes : List (Change α)) :
    let index := afterAll changes
    index.keys.Pairwise (· < ·) ∧ [] ∉ index.entries.map (·.2) ∧
    (∀ text, index.find text = filedUnder (kept changes) (lower text)) ∧
    index.keys = sortedDistinct ((kept changes).map (·.1)) ∧
    ∀ text, index.startingWith text =
      (index.keys.filter fun key => (lower text).toList.isPrefixOf key.toList).flatMap
        (filedUnder (kept changes)) := by
  have hholds := holds_afterAll changes
  have hincreasing := List.pairwise_map.2 hholds.ordered
  exact ⟨hincreasing, hholds.filled, fun text => hholds.exact (lower text), hholds.keys_eq,
    hholds.startingWith_eq⟩

/-- An item is filed again under a key that it was taken away from, and stands last there. -/
example :
    let changes := [.add ["beta", "al"] 1, .addAll (fun _ => ["beta", "beta"]) [2],
      .remove ["beta", "gamma"] (· == 1), .add ["Alpha", "beta"] 1]
    kept changes = [("al", 1), ("beta", 2), ("beta", 2), ("Alpha", 1), ("beta", 1)] ∧
      (afterAll changes).entries = [("Alpha", [1]), ("al", [1]), ("beta", [2, 2, 1])] := by
  decide

end SymbolIndex.NameIndex
