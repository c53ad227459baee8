import Mathlib.Tactic.Tauto
import SymbolIndex.NameIndex

/-!
# What a name index holds

A name index stands for a map from keys to the lists of items filed under them.
Filing and taking away act on that map key by key as long as the keys of the
index increase, which every operation keeps.  The increasing order is also why
the keys with a given beginning stand together, so that a search by beginning
may stop at the first key without it.
-/

namespace SymbolIndex.NameIndex

open SymbolIndex.Text

variable {α : Type}

/-! ## Entries -/

def Increasing (entries : List (String × List α)) : Prop :=
  entries.Pairwise fun left right => left.1 < right.1

/-- The items under a key. -/
def itemsUnder (entries : List (String × List α)) (key : String) : List α :=
  (entries.lookup key).getD []

@[simp]
theorem itemsUnder_nil (key : String) :
    itemsUnder ([] : List (String × List α)) key = [] := rfl

theorem itemsUnder_cons (entry : String × List α)
    (rest : List (String × List α)) (key : String) :
    itemsUnder (entry :: rest) key =
      if key = entry.1 then entry.2 else itemsUnder rest key := by
  rw [itemsUnder, List.lookup_cons]
  by_cases heq : key = entry.1
  · simp [heq]
  · have hne : (key == entry.1) = false := by simpa using heq
    simp [itemsUnder, heq, hne]

/-- A key before all others has no items. -/
theorem itemsUnder_eq_nil {entries : List (String × List α)} {key : String}
    (habove : ∀ entry ∈ entries, key < entry.1) : itemsUnder entries key = [] := by
  induction entries with
  | nil => rfl
  | cons entry rest ih =>
      have hne : key ≠ entry.1 := by
        intro heq
        exact String.lt_irrefl key (heq ▸ habove entry (by simp))
      rw [itemsUnder_cons, if_neg hne]
      exact ih fun other hmem => habove other (List.mem_cons_of_mem _ hmem)

/-- Where the keys increase, the items of a key are those of the entry with it. -/
theorem mem_itemsUnder_iff {entries : List (String × List α)}
    (hincreasing : Increasing entries) (key : String) (item : α) :
    item ∈ itemsUnder entries key ↔
      ∃ entry ∈ entries, entry.1 = key ∧ item ∈ entry.2 := by
  induction entries with
  | nil => simp
  | cons entry rest ih =>
      obtain ⟨hentry, hrest⟩ := List.pairwise_cons.1 hincreasing
      rw [itemsUnder_cons]
      by_cases heq : key = entry.1
      · have hother : ∀ other ∈ rest, other.1 ≠ key := by
          intro other hmem hkey
          have hlt := hentry other hmem
          rw [hkey, heq] at hlt
          exact String.lt_irrefl _ hlt
        rw [if_pos heq]
        constructor
        · intro hitem
          exact ⟨entry, by simp, heq.symm, hitem⟩
        · rintro ⟨other, hmem, hkey, hitem⟩
          rcases List.mem_cons.1 hmem with rfl | hmem
          · exact hitem
          · exact absurd hkey (hother other hmem)
      · rw [if_neg heq, ih hrest]
        constructor
        · rintro ⟨other, hmem, hfound⟩
          exact ⟨other, List.mem_cons_of_mem _ hmem, hfound⟩
        · rintro ⟨other, hmem, hkey, hitem⟩
          rcases List.mem_cons.1 hmem with rfl | hmem
          · exact absurd hkey.symm heq
          · exact ⟨other, hmem, hkey, hitem⟩

/-! ## Filing one item -/

theorem insertInto_above {entries : List (String × List α)} {bound key : String}
    (item : α) (hkey : bound < key) (habove : ∀ entry ∈ entries, bound < entry.1) :
    ∀ entry ∈ insertInto key item entries, bound < entry.1 := by
  induction entries with
  | nil => simpa [insertInto] using hkey
  | cons entry rest ih =>
      have hrest : ∀ other ∈ rest, bound < other.1 := fun other hmem =>
        habove other (List.mem_cons_of_mem _ hmem)
      have hentry := habove entry (by simp)
      intro other hmem
      rw [insertInto] at hmem
      split at hmem
      · rcases List.mem_cons.1 hmem with rfl | hmem
        · exact hkey
        · exact habove other hmem
      · split at hmem
        · rcases List.mem_cons.1 hmem with rfl | hmem
          · exact hkey
          · exact hrest other hmem
        · rcases List.mem_cons.1 hmem with rfl | hmem
          · exact hentry
          · exact ih hrest other hmem

/-- An item is filed where its key belongs in the order. -/
theorem Increasing.insertInto {entries : List (String × List α)}
    (hincreasing : Increasing entries) (key : String) (item : α) :
    Increasing (insertInto key item entries) := by
  induction entries with
  | nil => exact List.pairwise_singleton _ _
  | cons entry rest ih =>
      obtain ⟨hentry, hrest⟩ := List.pairwise_cons.1 hincreasing
      rw [NameIndex.insertInto]
      split
      · rename_i hlt
        refine List.pairwise_cons.2 ⟨?_, hincreasing⟩
        intro other hmem
        rcases List.mem_cons.1 hmem with rfl | hmem
        · exact hlt
        · exact String.lt_trans hlt (hentry other hmem)
      · rename_i hnlt
        split
        · rename_i heq
          exact List.pairwise_cons.2 ⟨fun other hmem => heq ▸ hentry other hmem, hrest⟩
        · rename_i hne
          have hlt : entry.1 < key := by
            rcases Std.le_total (a := entry.1) (b := key) with hle | hle
            · exact Std.lt_of_le_of_ne hle (Ne.symm hne)
            · exact absurd (Std.lt_of_le_of_ne hle hne) hnlt
          exact List.pairwise_cons.2
            ⟨insertInto_above item hlt hentry, ih hrest⟩

/-- An item goes behind the others of its key, and to no other key. -/
theorem itemsUnder_insertInto {entries : List (String × List α)}
    (hincreasing : Increasing entries) (key other : String) (item : α) :
    itemsUnder (insertInto key item entries) other =
      if other = key then itemsUnder entries key ++ [item]
      else itemsUnder entries other := by
  induction entries with
  | nil => simp [insertInto, itemsUnder_cons]
  | cons entry rest ih =>
      obtain ⟨hentry, hrest⟩ := List.pairwise_cons.1 hincreasing
      rw [insertInto]
      split
      · rename_i hlt
        have hnone : itemsUnder (entry :: rest) key = [] := by
          apply itemsUnder_eq_nil
          intro found hmem
          rcases List.mem_cons.1 hmem with rfl | hmem
          · exact hlt
          · exact String.lt_trans hlt (hentry found hmem)
        rw [itemsUnder_cons, hnone, List.nil_append]
      · split
        · rename_i heq
          rw [itemsUnder_cons, itemsUnder_cons, itemsUnder_cons, heq]
          split <;> simp
        · rename_i hne
          rw [itemsUnder_cons, ih hrest, itemsUnder_cons, itemsUnder_cons,
            if_neg hne]
          by_cases hother : other = entry.1
          · have hkey : entry.1 ≠ key := fun h => hne h.symm
            simp [hother, hkey]
          · simp [hother]

/-! ## Taking items away -/

theorem eraseFrom_subset (entries : List (String × List α)) (key : String)
    (same : α → Bool) :
    ∀ entry ∈ eraseFrom key same entries, ∃ old ∈ entries, old.1 = entry.1 := by
  induction entries with
  | nil => simp [eraseFrom]
  | cons head rest ih =>
      intro entry hmem
      rw [eraseFrom] at hmem
      split at hmem
      · rename_i heq
        split at hmem
        · exact ⟨entry, List.mem_cons_of_mem _ hmem, rfl⟩
        · rcases List.mem_cons.1 hmem with rfl | hmem
          · exact ⟨head, by simp, heq.symm⟩
          · exact ⟨entry, List.mem_cons_of_mem _ hmem, rfl⟩
      · rcases List.mem_cons.1 hmem with rfl | hmem
        · exact ⟨entry, by simp, rfl⟩
        · obtain ⟨old, hold, hkey⟩ := ih entry hmem
          exact ⟨old, List.mem_cons_of_mem _ hold, hkey⟩

/-- An entry that loses its items leaves the keys in order. -/
theorem Increasing.eraseFrom {entries : List (String × List α)}
    (hincreasing : Increasing entries) (key : String) (same : α → Bool) :
    Increasing (eraseFrom key same entries) := by
  induction entries with
  | nil => exact List.Pairwise.nil
  | cons entry rest ih =>
      obtain ⟨hentry, hrest⟩ := List.pairwise_cons.1 hincreasing
      rw [NameIndex.eraseFrom]
      split
      · rename_i heq
        split
        · exact hrest
        · exact List.pairwise_cons.2 ⟨fun other hmem => heq ▸ hentry other hmem, hrest⟩
      · refine List.pairwise_cons.2 ⟨?_, ih hrest⟩
        intro other hmem
        obtain ⟨old, hold, hkey⟩ := eraseFrom_subset rest key same other hmem
        exact hkey ▸ hentry old hold

/-- Items are taken from under one key, and from no other. -/
theorem itemsUnder_eraseFrom {entries : List (String × List α)}
    (hincreasing : Increasing entries) (key other : String) (same : α → Bool) :
    itemsUnder (eraseFrom key same entries) other =
      if other = key then (itemsUnder entries key).filter fun item => !same item
      else itemsUnder entries other := by
  induction entries with
  | nil => simp [eraseFrom]
  | cons entry rest ih =>
      obtain ⟨hentry, hrest⟩ := List.pairwise_cons.1 hincreasing
      rw [eraseFrom]
      split
      · rename_i heq
        have hnone : itemsUnder rest key = [] :=
          itemsUnder_eq_nil fun found hmem => heq ▸ hentry found hmem
        rw [itemsUnder_cons entry rest key, if_pos heq]
        split
        · rename_i hgone
          by_cases hother : other = key
          · rw [if_pos hother, hother, hnone, hgone]
          · rw [if_neg hother, itemsUnder_cons, if_neg (heq ▸ hother)]
        · rename_i hkept
          by_cases hother : other = key
          · simp [itemsUnder_cons, hother]
          · simp [itemsUnder_cons, hother, ← heq]
      · rename_i hne
        rw [itemsUnder_cons, ih hrest, itemsUnder_cons, itemsUnder_cons, if_neg hne]
        by_cases hother : other = entry.1
        · have hkey : entry.1 ≠ key := fun h => hne h.symm
          simp [hother, hkey]
        · simp [hother]

/-! ## Many keys -/

/-- The items that an index holds under a key. -/
def under (index : NameIndex α) (key : String) : List α :=
  itemsUnder index.entries key

theorem find_eq_under (index : NameIndex α) (text : String) :
    index.find text = index.under (lower text) := rfl

/-- The keys of an index increase. -/
def IsOrdered (index : NameIndex α) : Prop :=
  Increasing index.entries

theorem isOrdered_empty : IsOrdered (empty : NameIndex α) :=
  List.Pairwise.nil

theorem IsOrdered.add {index : NameIndex α} (hordered : index.IsOrdered)
    (keys : List String) (item : α) : (index.add keys item).IsOrdered := by
  induction keys generalizing index with
  | nil => exact hordered
  | cons key rest ih =>
      have hnext : (⟨NameIndex.insertInto key item index.entries⟩ : NameIndex α).IsOrdered :=
        Increasing.insertInto hordered key item
      exact ih hnext

theorem IsOrdered.remove {index : NameIndex α} (hordered : index.IsOrdered)
    (keys : List String) (same : α → Bool) : (index.remove keys same).IsOrdered := by
  induction keys generalizing index with
  | nil => exact hordered
  | cons key rest ih =>
      have hnext : (⟨NameIndex.eraseFrom key same index.entries⟩ : NameIndex α).IsOrdered :=
        Increasing.eraseFrom hordered key same
      exact ih hnext

/-- An item is found under each of the keys that it was added with. -/
theorem mem_under_add {index : NameIndex α} (hordered : index.IsOrdered)
    (keys : List String) (item other : α) (key : String) :
    other ∈ (index.add keys item).under key ↔
      other ∈ index.under key ∨ key ∈ keys ∧ other = item := by
  induction keys generalizing index with
  | nil => simp [add]
  | cons first rest ih =>
      have hnext : (⟨insertInto first item index.entries⟩ : NameIndex α).IsOrdered :=
        Increasing.insertInto hordered first item
      have hstep := itemsUnder_insertInto hordered first key item
      apply (ih hnext).trans
      rw [under, under, hstep, List.mem_cons]
      by_cases heq : key = first
      · simp only [heq, if_true, List.mem_append, List.mem_singleton]
        tauto
      · simp only [heq, if_false, false_or]

/-- An item is not found any more under the keys that it was removed with. -/
theorem mem_under_remove {index : NameIndex α} (hordered : index.IsOrdered)
    (keys : List String) (same : α → Bool) (item : α) (key : String) :
    item ∈ (index.remove keys same).under key ↔
      item ∈ index.under key ∧ ¬ (key ∈ keys ∧ same item = true) := by
  induction keys generalizing index with
  | nil => simp [remove]
  | cons first rest ih =>
      have hnext : (⟨eraseFrom first same index.entries⟩ : NameIndex α).IsOrdered :=
        Increasing.eraseFrom hordered first same
      have hstep := itemsUnder_eraseFrom hordered first key same
      apply (ih hnext).trans
      rw [under, under, hstep, List.mem_cons]
      by_cases heq : key = first
      · simp only [heq, if_true, List.mem_filter, Bool.not_eq_true',
          ← Bool.not_eq_true]
        tauto
      · simp only [heq, if_false, false_or]

/-! ## Beginnings of keys -/

theorem not_lt_of_isPrefix {start key : List Char} (hbegins : start <+: key) :
    ¬ key < start := by
  induction start generalizing key with
  | nil => exact List.not_lt_nil key
  | cons c rest ih =>
      obtain ⟨tail, rfl⟩ := hbegins
      rw [List.cons_append, List.cons_lt_cons_iff]
      rintro (hlt | ⟨-, hlt⟩)
      · exact Char.lt_irrefl c hlt
      · exact ih (List.prefix_append rest tail) hlt

/-- What stands between a text and a key that begins with it begins with it. -/
theorem isPrefix_of_between {start key later : List Char}
    (hstart : ¬ key < start) (hlt : key < later) (hbegins : start <+: later) :
    start <+: key := by
  induction start generalizing key later with
  | nil => exact List.nil_prefix
  | cons c rest ih =>
      obtain ⟨tail, rfl⟩ := hbegins
      cases key with
      | nil => exact absurd (List.nil_lt_cons c rest) hstart
      | cons d between =>
          rw [List.cons_append, List.cons_lt_cons_iff] at hlt
          rw [List.cons_lt_cons_iff, not_or] at hstart
          rcases hlt with hlt | ⟨rfl, hlt⟩
          · exact absurd hlt hstart.1
          · have hrest : ¬ between < rest := fun h => hstart.2 ⟨rfl, h⟩
            exact List.cons_prefix_cons.2
              ⟨rfl, ih hrest hlt (List.prefix_append rest tail)⟩

/-- The keys with a beginning stand together, before all others that are not smaller. -/
theorem takeWhile_isPrefix {entries : List (String × List α)} {start : String}
    (hincreasing : Increasing entries) (habove : ∀ entry ∈ entries, ¬ entry.1 < start) :
    (entries.takeWhile fun entry => start.toList.isPrefixOf entry.1.toList) =
      entries.filter fun entry => start.toList.isPrefixOf entry.1.toList := by
  induction entries with
  | nil => rfl
  | cons entry rest ih =>
      obtain ⟨hentry, hrest⟩ := List.pairwise_cons.1 hincreasing
      by_cases hbegins : start.toList.isPrefixOf entry.1.toList = true
      · have hbelow := ih hrest fun other hmem => habove other (List.mem_cons_of_mem _ hmem)
        simp [hbegins, hbelow]
      · have hnone : ∀ other ∈ rest, ¬ start.toList.isPrefixOf other.1.toList = true := by
          intro other hmem hother
          apply hbegins
          rw [List.isPrefixOf_iff_prefix] at hother ⊢
          exact isPrefix_of_between (habove entry (by simp)) (hentry other hmem) hother
        have hfilter := List.filter_eq_nil_iff.2 hnone
        simp [hbegins, hfilter]

/-- The search by beginning reads the keys that have it and no others. -/
theorem startingWith_eq_filter {index : NameIndex α} (hordered : index.IsOrdered)
    (text : String) :
    index.startingWith text =
      (index.entries.filter fun entry =>
        (lower text).toList.isPrefixOf entry.1.toList).flatMap (·.2) := by
  rw [startingWith]
  congr 1
  obtain ⟨entries⟩ := index
  induction entries with
  | nil => rfl
  | cons entry rest ih =>
      obtain ⟨hentry, hrest⟩ := List.pairwise_cons.1 hordered
      by_cases hlt : entry.1 < lower text
      · have hbegins : ¬ (lower text).toList.isPrefixOf entry.1.toList = true := by
          rw [List.isPrefixOf_iff_prefix]
          exact fun h => not_lt_of_isPrefix h hlt
        rw [List.filter_cons, if_neg hbegins, List.dropWhile_cons_of_pos (by simpa using hlt)]
        exact ih hrest
      · rw [List.dropWhile_cons_of_neg (by simpa using hlt)]
        apply takeWhile_isPrefix hordered
        intro other hmem hother
        rcases List.mem_cons.1 hmem with rfl | hmem
        · exact hlt hother
        · exact hlt (String.lt_trans (hentry other hmem) hother)

/-- What is found for a beginning stands under some key that has it, lower-cased. -/
theorem mem_startingWith_iff {index : NameIndex α} (hordered : index.IsOrdered)
    (text : String) (item : α) :
    item ∈ index.startingWith text ↔
      ∃ key, (lower text).toList <+: key.toList ∧ item ∈ index.under key := by
  rw [startingWith_eq_filter hordered, List.mem_flatMap]
  constructor
  · rintro ⟨entry, hentry, hitem⟩
    obtain ⟨hmem, hbegins⟩ := List.mem_filter.1 hentry
    exact ⟨entry.1, List.isPrefixOf_iff_prefix.1 hbegins,
      (mem_itemsUnder_iff hordered _ _).2 ⟨entry, hmem, rfl, hitem⟩⟩
  · rintro ⟨key, hbegins, hitem⟩
    obtain ⟨entry, hmem, rfl, hfiled⟩ := (mem_itemsUnder_iff hordered _ _).1 hitem
    exact ⟨entry, List.mem_filter.2 ⟨hmem, List.isPrefixOf_iff_prefix.2 hbegins⟩, hfiled⟩

end SymbolIndex.NameIndex
