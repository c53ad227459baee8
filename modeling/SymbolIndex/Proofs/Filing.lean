/-!
# Items filed by name

The stores keep their tables in lists and tell by a test under which name an
item is held.  An item is taken out by erasing the first one that is held under
the name, which is right only because no two items share a name.  This module
states that invariant for any such test and shows how looking up, taking out
and adding at the end work together under it.
-/

namespace SymbolIndex

/-- No two items are held under one name. -/
def FiledOnce {α : Type} (held : String → α → Bool) (items : List α) : Prop :=
  items.Pairwise fun left right =>
    ∀ name, held name left = true → held name right = false

namespace FiledOnce

variable {α : Type} {held : String → α → Bool} {items : List α}

/-- At most one item is held under a name, and looking for it finds it. -/
theorem filter_eq_toList_find? (honce : FiledOnce held items) (name : String) :
    items.filter (held name) = (items.find? (held name)).toList := by
  induction items with
  | nil => rfl
  | cons item rest ih =>
      obtain ⟨hitem, hrest⟩ := List.pairwise_cons.1 honce
      by_cases hheld : held name item = true
      · have hnone : rest.filter (held name) = [] := by
          rw [List.filter_eq_nil_iff]
          intro other hmem
          simp [hitem other hmem name hheld]
        simp [hheld, hnone]
      · simpa [hheld] using ih hrest

theorem find?_eraseP_self (honce : FiledOnce held items) (name : String) :
    (items.eraseP (held name)).find? (held name) = none := by
  induction items with
  | nil => rfl
  | cons item rest ih =>
      obtain ⟨hitem, hrest⟩ := List.pairwise_cons.1 honce
      by_cases hheld : held name item = true
      · rw [List.eraseP_cons_of_pos hheld, List.find?_eq_none]
        intro other hmem
        simp [hitem other hmem name hheld]
      · simpa [hheld] using ih hrest

theorem eraseP (honce : FiledOnce held items) (p : α → Bool) :
    FiledOnce held (items.eraseP p) :=
  List.Pairwise.sublist List.eraseP_sublist honce

/-- A new item may be added once its own names are free. -/
theorem concat (honce : FiledOnce held items) {item : α}
    (hfree : ∀ name, held name item = true → items.find? (held name) = none) :
    FiledOnce held (items ++ [item]) := by
  refine List.pairwise_append.2 ⟨honce, List.pairwise_singleton _ _, ?_⟩
  intro other hmem last hlast name hother
  obtain rfl := List.mem_singleton.1 hlast
  rw [Bool.eq_false_iff]
  intro hheld
  exact List.find?_eq_none.1 (hfree name hheld) other hmem hother

/-- Under the invariant the item found is the only one held under its name. -/
theorem find?_eq_some_of_mem (honce : FiledOnce held items) {name : String}
    {item : α} (hmem : item ∈ items) (hheld : held name item = true) :
    items.find? (held name) = some item := by
  have hfilter : item ∈ items.filter (held name) :=
    List.mem_filter.2 ⟨hmem, hheld⟩
  rw [honce.filter_eq_toList_find? name] at hfilter
  simpa using hfilter

end FiledOnce

section

variable {α : Type}

/-- Taking out what is held under one name leaves the items of other names,
where an item is held under its own name only. -/
theorem find?_eraseP_of_ne (held : String → α → Bool) {nameOf : α → String}
    (hown : ∀ name item, held name item = true → nameOf item = name)
    {name other : String} (hne : other ≠ name) (items : List α) :
    (items.eraseP (held name)).find? (held other) = items.find? (held other) := by
  induction items with
  | nil => rfl
  | cons item rest ih =>
      by_cases hother : held other item = true
      · have hname : held name item = false := by
          rw [Bool.eq_false_iff]
          intro hheld
          exact hne ((hown other item hother).symm.trans (hown name item hheld))
        simp [hname, hother]
      · by_cases hname : held name item = true
        · simp [hname, hother]
        · simp [hname, hother, ih]

theorem find?_concat (items : List α) (p : α → Bool) (item : α) :
    (items ++ [item]).find? p =
      (items.find? p).or (if p item then some item else none) := by
  rw [List.find?_append]
  congr 1
  by_cases hitem : p item = true <;> simp [hitem]

/-- An item that is taken out and put at the end. -/
theorem perm_eraseP_concat {items : List α} {p : α → Bool} {item : α}
    (hfound : items.find? p = some item) : (items.eraseP p ++ [item]).Perm items := by
  induction items with
  | nil => cases hfound
  | cons first rest ih =>
    by_cases hfirst : p first = true
    · rw [List.find?_cons_of_pos hfirst, Option.some_inj] at hfound
      rw [List.eraseP_cons_of_pos hfirst, hfound]
      exact List.perm_append_singleton item rest
    · rw [List.find?_cons_of_neg hfirst] at hfound
      rw [List.eraseP_cons_of_neg hfirst]
      exact (ih hfound).cons first

/-- What the last of some items tells changes only with one more of them. -/
theorem bind_getLast?_filter_concat {β : Type} (items : List α) (p : α → Bool) (item : α)
    (f : α → Option β) :
    ((items ++ [item]).filter p).getLast?.bind f =
      if p item then f item else (items.filter p).getLast?.bind f := by
  rw [List.filter_append]
  by_cases hitem : p item = true <;> simp [hitem]

end

end SymbolIndex
