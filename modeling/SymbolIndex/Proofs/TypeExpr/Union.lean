import SymbolIndex.Proofs.Text.Lines
import SymbolIndex.TypeExpr

/-!
# Unions of types

A union is written as a text and read back by cutting it at its bars.  Where all
parentheses of two types close, what is read back from their union are the
members of both, in order, each once.
-/

namespace SymbolIndex

namespace TypeExpr

/-! ## Cutting at bars -/

/-- A text without a bar outside its parentheses, which all close. -/
def Whole (depth : Nat) (part : List Char) : Prop :=
  split depth part = [part] ∧ nesting depth part = 0

theorem split_ne_nil (depth : Nat) (chars : List Char) : split depth chars ≠ [] := by
  cases chars with
  | nil => exact List.cons_ne_nil _ _
  | cons c rest =>
      rw [split]
      split
      · exact List.cons_ne_nil _ _
      · split
        · exact List.cons_ne_nil _ _
        · exact List.cons_ne_nil _ _

theorem split_cons_bar (rest : List Char) : split 0 ('|' :: rest) = [] :: split 0 rest :=
  if_pos ⟨rfl, rfl⟩

/-- What is no bar outside of parentheses belongs to the piece that it stands in. -/
theorem split_cons {depth : Nat} {c : Char} (hcut : ¬(c = '|' ∧ depth = 0)) {rest head : List Char}
    {more : List (List Char)} (hrest : split (nestingAfter depth c) rest = head :: more) :
    split depth (c :: rest) = (c :: head) :: more := by
  rw [split, if_neg hcut, hrest]

theorem whole_nil_iff {depth : Nat} : Whole depth [] ↔ depth = 0 :=
  ⟨fun hwhole => hwhole.2, fun hdepth => ⟨rfl, hdepth⟩⟩

theorem whole_cons_iff {depth : Nat} {c : Char} {rest : List Char} :
    Whole depth (c :: rest) ↔
      ¬(c = '|' ∧ depth = 0) ∧ Whole (nestingAfter depth c) rest := by
  by_cases hcut : c = '|' ∧ depth = 0
  · obtain ⟨rfl, rfl⟩ := hcut
    refine ⟨fun hwhole => ?_, fun hwhole => absurd ⟨rfl, rfl⟩ hwhole.1⟩
    have hsplit := hwhole.1
    rw [split_cons_bar] at hsplit
    cases (List.cons.inj hsplit).1
  · obtain ⟨head, more, hrest⟩ := List.exists_cons_of_ne_nil
      (split_ne_nil (nestingAfter depth c) rest)
    rw [Whole, Whole, split_cons hcut hrest, hrest]
    simp only [List.cons.injEq, true_and, hcut, not_false_eq_true]
    exact Iff.rfl

/-- The cuts of a text whose parentheses all close.  The first piece begins at
the nesting of the text, the others outside all parentheses. -/
theorem whole_of_split {depth : Nat} {chars : List Char} (hclosed : nesting depth chars = 0) :
    ∃ head more, split depth chars = head :: more ∧ Whole depth head ∧
      ∀ part ∈ more, Whole 0 part := by
  induction chars generalizing depth with
  | nil => exact ⟨[], [], rfl, ⟨rfl, hclosed⟩, fun _ hmem => absurd hmem List.not_mem_nil⟩
  | cons c rest ih =>
      obtain ⟨head, more, hsplit, hhead, hmore⟩ := @ih (nestingAfter depth c) hclosed
      by_cases hcut : c = '|' ∧ depth = 0
      · obtain ⟨rfl, rfl⟩ := hcut
        refine ⟨[], split 0 rest, split_cons_bar rest, whole_nil_iff.2 rfl, ?_⟩
        have hrest : split 0 rest = head :: more := hsplit
        rw [hrest, List.forall_mem_cons]
        exact ⟨hhead, hmore⟩
      · exact ⟨c :: head, more, split_cons hcut hsplit, whole_cons_iff.2 ⟨hcut, hhead⟩, hmore⟩

/-- A whole text before a bar is the first piece. -/
theorem split_append_bar {depth : Nat} {part : List Char} (hpart : Whole depth part)
    (rest : List Char) : split depth (part ++ '|' :: rest) = part :: split 0 rest := by
  induction part generalizing depth with
  | nil =>
      obtain rfl := whole_nil_iff.1 hpart
      exact split_cons_bar rest
  | cons c tail ih =>
      obtain ⟨hcut, htail⟩ := whole_cons_iff.1 hpart
      exact split_cons hcut (ih htail)

theorem nesting_append_bar {part : List Char} (hpart : Whole 0 part) (rest : List Char) :
    nesting 0 (part ++ '|' :: rest) = nesting 0 rest := by
  have hclosed := hpart.2
  rw [nesting] at hclosed
  rw [nesting, List.foldl_append, hclosed]
  rfl

theorem join_singleton (part : List Char) : join [part] = part :=
  List.intercalate_singleton

theorem join_cons_cons (part other : List Char) (rest : List (List Char)) :
    join (part :: other :: rest) = part ++ '|' :: join (other :: rest) := by
  rw [join, List.intercalate_cons_cons, List.append_assoc]
  rfl

/-- Whole parts put together with bars are cut into the same parts. -/
theorem split_join {parts : List (List Char)} (hparts : ∀ part ∈ parts, Whole 0 part)
    (hsome : parts ≠ []) : split 0 (join parts) = parts := by
  induction parts with
  | nil => exact absurd rfl hsome
  | cons part rest ih =>
      obtain ⟨hpart, hrest⟩ := List.forall_mem_cons.1 hparts
      cases rest with
      | nil =>
          rw [join_singleton]
          exact hpart.1
      | cons other rest =>
          rw [join_cons_cons, split_append_bar hpart, ih hrest (List.cons_ne_nil _ _)]

theorem nesting_join {parts : List (List Char)} (hparts : ∀ part ∈ parts, Whole 0 part) :
    nesting 0 (join parts) = 0 := by
  induction parts with
  | nil => rfl
  | cons part rest ih =>
      obtain ⟨hpart, hrest⟩ := List.forall_mem_cons.1 hparts
      cases rest with
      | nil =>
          rw [join_singleton]
          exact hpart.2
      | cons other rest => rw [join_cons_cons, nesting_append_bar hpart, ih hrest]

/-! ## Members -/

/-- What can be a member of a union: no union itself, and not blank outside. -/
structure IsMember (part : List Char) : Prop where
  whole : Whole 0 part
  trimmed : Text.trim part = part
  solid : part ≠ []

theorem nestingAfter_of_isBlank {c : Char} (hblank : Text.isBlank c = true) (depth : Nat) :
    nestingAfter depth c = depth := by
  unfold nestingAfter
  split
  · exact absurd hblank (by decide)
  · exact absurd hblank (by decide)
  · rfl

theorem Whole.of_blank_front {c : Char} {rest : List Char} (hblank : Text.isBlank c = true)
    (hwhole : Whole 0 (c :: rest)) : Whole 0 rest := by
  obtain ⟨-, hrest⟩ := whole_cons_iff.1 hwhole
  rwa [nestingAfter_of_isBlank hblank] at hrest

theorem Whole.of_blank_back {depth : Nat} {front : List Char} {c : Char}
    (hblank : Text.isBlank c = true) (hwhole : Whole depth (front ++ [c])) :
    Whole depth front := by
  induction front generalizing depth with
  | nil =>
      obtain ⟨-, hrest⟩ := whole_cons_iff.1 hwhole
      rwa [nestingAfter_of_isBlank hblank] at hrest
  | cons first rest ih =>
      obtain ⟨hcut, hrest⟩ := whole_cons_iff.1 hwhole
      exact whole_cons_iff.2 ⟨hcut, ih hrest⟩

theorem Whole.trim {part : List Char} (hpart : Whole 0 part) : Whole 0 (Text.trim part) :=
  Text.trim_induction hpart (fun _ _ hblank => Whole.of_blank_front hblank)
    fun _ _ hblank => Whole.of_blank_back hblank

/-- What a closed type is cut into can be members of a union. -/
theorem isMember_of_mem_members {chars part : List Char} (hclosed : nesting 0 chars = 0)
    (hmem : part ∈ members chars) : IsMember part := by
  rw [members, List.mem_filter, List.mem_map] at hmem
  obtain ⟨⟨piece, hpiece, rfl⟩, hsolid⟩ := hmem
  obtain ⟨head, more, hsplit, hhead, hmore⟩ := whole_of_split hclosed
  have hwhole : Whole 0 piece := by
    rw [hsplit] at hpiece
    rcases List.mem_cons.1 hpiece with rfl | hlater
    · exact hhead
    · exact hmore piece hlater
  refine ⟨hwhole.trim, Text.trim_trim piece, ?_⟩
  intro hnil
  rw [hnil] at hsolid
  cases hsolid

theorem members_join {parts : List (List Char)} (hparts : ∀ part ∈ parts, IsMember part) :
    members (join parts) = parts := by
  by_cases hnone : parts = []
  · subst hnone
    rfl
  · have htrimmed : parts.map Text.trim = parts :=
      (List.map_congr_left fun part hmem => (hparts part hmem).trimmed).trans (List.map_id' parts)
    have hsolid : parts.filter (fun part => !part.isEmpty) = parts :=
      List.filter_eq_self.2 fun part hmem => by simpa using (hparts part hmem).solid
    rw [members, split_join (fun part hmem => (hparts part hmem).whole) hnone, htrimmed, hsolid]

theorem members_joinUnique {parts : List (List Char)} (hparts : ∀ part ∈ parts, IsMember part) :
    members (joinUnique parts) = parts.eraseDups :=
  members_join fun part hmem => hparts part (List.mem_eraseDups.1 hmem)

/-! ## Types -/

/-- All parentheses of a type close. -/
def Closed (type : String) : Prop :=
  nesting 0 type.toList = 0

instance (type : String) : Decidable (Closed type) :=
  inferInstanceAs (Decidable (nesting 0 type.toList = 0))

@[simp]
theorem atoms_empty : atoms "" = [] := by
  rw [atoms, String.toList_empty]
  rfl

theorem isMember_of_mem_append {left right : String} (hleft : Closed left)
    (hright : Closed right) :
    ∀ part ∈ members left.toList ++ members right.toList, IsMember part :=
  List.forall_mem_append.2
    ⟨fun _ => isMember_of_mem_members hleft, fun _ => isMember_of_mem_members hright⟩

/-- The union of two types has the members of both, each at its first place. -/
theorem members_merge {left right : String} (hleft : Closed left) (hright : Closed right) :
    members (merge left right).toList =
      (members left.toList ++ members right.toList).eraseDups := by
  rw [merge, String.toList_ofList]
  exact members_joinUnique (isMember_of_mem_append hleft hright)

theorem closed_merge {left right : String} (hleft : Closed left) (hright : Closed right) :
    Closed (merge left right) := by
  rw [Closed, merge, String.toList_ofList]
  apply nesting_join
  intro part hmem
  exact (isMember_of_mem_append hleft hright part (List.mem_eraseDups.1 hmem)).whole

/-- A merge has the parts of both types, and no others. -/
theorem mem_atoms_merge {left right atom : String} (hleft : Closed left) (hright : Closed right) :
    atom ∈ atoms (merge left right) ↔ atom ∈ atoms left ∨ atom ∈ atoms right := by
  simp only [atoms, List.mem_map, members_merge hleft hright, List.mem_eraseDups, List.mem_append]
  constructor
  · rintro ⟨part, hmem | hmem, heq⟩
    · exact Or.inl ⟨part, hmem, heq⟩
    · exact Or.inr ⟨part, hmem, heq⟩
  · rintro (⟨part, hmem, heq⟩ | ⟨part, hmem, heq⟩)
    · exact ⟨part, Or.inl hmem, heq⟩
    · exact ⟨part, Or.inr hmem, heq⟩

end TypeExpr

end SymbolIndex
