import Mathlib.Data.List.Infix
import SymbolIndex.Proofs.TypeExpr.Laws

/-!
# Balanced types

A type is closed where the nesting ends at zero, which forgives a parenthesis
that closes nothing.  Inside the parentheses of a group it is not forgiven: it
closes the group.  So the array type of a union can be taken apart again where
no beginning of the union closes more than it opens.
-/

namespace SymbolIndex

namespace TypeExpr

/-! ## Balanced texts -/

/-- No beginning of the text closes more parentheses than it opens and `height`
more, and in the end all are closed. -/
structure BalancedFrom (height : Nat) (chars : List Char) : Prop where
  bounded : ∀ front ∈ chars.inits, front.count ')' ≤ height + front.count '('
  settled : chars.count ')' = height + chars.count '('

/-- The parentheses of a type are balanced. -/
def Balanced (type : String) : Prop :=
  BalancedFrom 0 type.toList

instance (height : Nat) (chars : List Char) : Decidable (BalancedFrom height chars) :=
  decidable_of_iff
    ((∀ front ∈ chars.inits, front.count ')' ≤ height + front.count '(') ∧
      chars.count ')' = height + chars.count '(')
    ⟨fun h => ⟨h.1, h.2⟩, fun h => ⟨h.1, h.2⟩⟩

instance (type : String) : Decidable (Balanced type) :=
  inferInstanceAs (Decidable (BalancedFrom 0 type.toList))

theorem balancedFrom_nil_iff {height : Nat} : BalancedFrom height [] ↔ height = 0 := by
  constructor
  · intro hbalanced
    simpa using hbalanced.settled.symm
  · rintro rfl
    exact ⟨by simp, rfl⟩

theorem nestingAfter_add_count {depth : Nat} {c : Char} (hopen : c = ')' → 0 < depth) :
    nestingAfter depth c + [c].count ')' = depth + [c].count '(' := by
  unfold nestingAfter
  split
  · rfl
  · have hpositive := hopen rfl
    have hone : [')'].count ')' = 1 := rfl
    have hnone : [')'].count '(' = 0 := rfl
    omega
  · rename_i hleft hright
    rw [List.count_eq_zero_of_not_mem, List.count_eq_zero_of_not_mem]
    · simpa using Ne.symm hleft
    · simpa using Ne.symm hright

/-- A text is balanced if it does not begin with a closing too many, and the rest is balanced
where it leads. -/
theorem balancedFrom_cons_iff {height : Nat} {c : Char} {rest : List Char} :
    BalancedFrom height (c :: rest) ↔
      (c = ')' → 0 < height) ∧ BalancedFrom (nestingAfter height c) rest := by
  have hcount : ∀ (other : Char) (chars : List Char),
      (c :: chars).count other = [c].count other + chars.count other :=
    fun _ _ => by rw [← List.singleton_append, List.count_append]
  have hfronts : (∀ front ∈ (c :: rest).inits, front.count ')' ≤ height + front.count '(') ↔
      ∀ front ∈ rest.inits, (c :: front).count ')' ≤ height + (c :: front).count '(' := by
    rw [List.inits_cons, List.forall_mem_cons, List.forall_mem_map]
    exact and_iff_right (Nat.zero_le _)
  constructor
  · rintro ⟨hbounded, hsettled⟩
    rw [hfronts] at hbounded
    have hopen : c = ')' → 0 < height := by
      rintro rfl
      exact hbounded [] (by simp)
    have hstep := nestingAfter_add_count hopen
    refine ⟨hopen, fun front hfront => ?_, ?_⟩
    · have hlonger := hbounded front hfront
      rw [hcount ')' front, hcount '(' front] at hlonger
      omega
    · rw [hcount ')' rest, hcount '(' rest] at hsettled
      omega
  · rintro ⟨hopen, hbounded, hsettled⟩
    have hstep := nestingAfter_add_count hopen
    refine ⟨hfronts.2 fun front hfront => ?_, ?_⟩
    · have hshorter := hbounded front hfront
      rw [hcount ')' front, hcount '(' front]
      omega
    · rw [hcount ')' rest, hcount '(' rest]
      omega

/-- Where a parenthesis is not closed before it was opened, more nesting
outside is more nesting after it. -/
theorem nestingAfter_succ {depth : Nat} {c : Char} (hopen : c = ')' → 0 < depth) :
    nestingAfter (depth + 1) c = nestingAfter depth c + 1 := by
  have hstep := nestingAfter_add_count hopen
  have hdeeper : nestingAfter (depth + 1) c + [c].count ')' = depth + 1 + [c].count '(' :=
    nestingAfter_add_count fun _ => Nat.succ_pos depth
  omega

namespace BalancedFrom

variable {height : Nat} {chars : List Char}

theorem append (hchars : BalancedFrom height chars) {rest : List Char}
    (hrest : BalancedFrom 0 rest) : BalancedFrom height (chars ++ rest) := by
  induction chars generalizing height with
  | nil =>
      obtain rfl := balancedFrom_nil_iff.1 hchars
      exact hrest
  | cons c tail ih =>
      obtain ⟨hopen, htail⟩ := balancedFrom_cons_iff.1 hchars
      exact balancedFrom_cons_iff.2 ⟨hopen, ih htail⟩

/-- One more parenthesis that is open is closed behind the text. -/
theorem close (hchars : BalancedFrom height chars) :
    BalancedFrom (height + 1) (chars ++ [')']) := by
  induction chars generalizing height with
  | nil =>
      obtain rfl := balancedFrom_nil_iff.1 hchars
      exact balancedFrom_cons_iff.2 ⟨fun _ => Nat.one_pos, balancedFrom_nil_iff.2 rfl⟩
  | cons c tail ih =>
      obtain ⟨hopen, htail⟩ := balancedFrom_cons_iff.1 hchars
      refine balancedFrom_cons_iff.2 ⟨fun _ => Nat.succ_pos height, ?_⟩
      rw [nestingAfter_succ hopen]
      exact ih htail

theorem nesting_eq_zero (hchars : BalancedFrom height chars) : nesting height chars = 0 := by
  induction chars generalizing height with
  | nil => exact balancedFrom_nil_iff.1 hchars
  | cons c tail ih => exact ih (balancedFrom_cons_iff.1 hchars).2

theorem of_blank_front {c : Char} (hblank : Text.isBlank c = true)
    (hchars : BalancedFrom height (c :: chars)) : BalancedFrom height chars := by
  obtain ⟨-, htail⟩ := balancedFrom_cons_iff.1 hchars
  rwa [nestingAfter_of_isBlank hblank] at htail

theorem of_blank_back {c : Char} (hblank : Text.isBlank c = true)
    (hchars : BalancedFrom height (chars ++ [c])) : BalancedFrom height chars := by
  induction chars generalizing height with
  | nil => exact hchars.of_blank_front hblank
  | cons first tail ih =>
      obtain ⟨hopen, htail⟩ := balancedFrom_cons_iff.1 hchars
      exact balancedFrom_cons_iff.2 ⟨hopen, ih htail⟩

theorem trim (hchars : BalancedFrom height chars) : BalancedFrom height (Text.trim chars) :=
  Text.trim_induction hchars (fun _ _ hblank => of_blank_front hblank)
    fun _ _ hblank => of_blank_back hblank

/-- The cuts of a balanced text are balanced, the first one from the height of
the text. -/
theorem split (hchars : BalancedFrom height chars) :
    ∃ head more, TypeExpr.split height chars = head :: more ∧ BalancedFrom height head ∧
      ∀ part ∈ more, BalancedFrom 0 part := by
  induction chars generalizing height with
  | nil => exact ⟨[], [], rfl, hchars, fun _ hmem => absurd hmem List.not_mem_nil⟩
  | cons c rest ih =>
      obtain ⟨hopen, hrest⟩ := balancedFrom_cons_iff.1 hchars
      obtain ⟨head, more, hsplit, hhead, hmore⟩ := ih hrest
      by_cases hcut : c = '|' ∧ height = 0
      · obtain ⟨rfl, rfl⟩ := hcut
        have hcuts : TypeExpr.split 0 rest = head :: more := hsplit
        refine ⟨[], TypeExpr.split 0 rest, split_cons_bar rest, balancedFrom_nil_iff.2 rfl, ?_⟩
        rw [hcuts, List.forall_mem_cons]
        exact ⟨hhead, hmore⟩
      · exact ⟨c :: head, more, split_cons hcut hsplit,
          balancedFrom_cons_iff.2 ⟨hopen, hhead⟩, hmore⟩

theorem members (hchars : BalancedFrom 0 chars) : ∀ part ∈ members chars, BalancedFrom 0 part := by
  intro part hmem
  rw [TypeExpr.members, List.mem_filter, List.mem_map] at hmem
  obtain ⟨⟨piece, hpiece, rfl⟩, -⟩ := hmem
  obtain ⟨head, more, hsplit, hhead, hmore⟩ := hchars.split
  rw [hsplit] at hpiece
  rcases List.mem_cons.1 hpiece with rfl | hlater
  · exact hhead.trim
  · exact (hmore piece hlater).trim

/-- Balanced members make a balanced type. -/
theorem join {parts : List (List Char)} (hparts : ∀ part ∈ parts, BalancedFrom 0 part) :
    BalancedFrom 0 (TypeExpr.join parts) := by
  induction parts with
  | nil => exact balancedFrom_nil_iff.2 rfl
  | cons part rest ih =>
      obtain ⟨hpart, hrest⟩ := List.forall_mem_cons.1 hparts
      cases rest with
      | nil =>
          rw [join_singleton]
          exact hpart
      | cons other rest =>
          rw [join_cons_cons]
          refine hpart.append (balancedFrom_cons_iff.2 ⟨?_, ih hrest⟩)
          decide

end BalancedFrom

/-! ## Groups -/

theorem Whole.append {depth : Nat} {part rest : List Char} (hpart : Whole depth part)
    (hrest : Whole 0 rest) : Whole depth (part ++ rest) := by
  induction part generalizing depth with
  | nil =>
      obtain rfl := whole_nil_iff.1 hpart
      exact hrest
  | cons c tail ih =>
      obtain ⟨hcut, htail⟩ := whole_cons_iff.1 hpart
      exact whole_cons_iff.2 ⟨hcut, ih htail⟩

/-- A balanced text is cut nowhere between parentheses. -/
theorem BalancedFrom.whole_close {height : Nat} {body : List Char}
    (hbody : BalancedFrom height body) : Whole (height + 1) (body ++ [')']) := by
  induction body generalizing height with
  | nil =>
      obtain rfl := balancedFrom_nil_iff.1 hbody
      exact whole_cons_iff.2 ⟨by decide, whole_nil_iff.2 rfl⟩
  | cons c tail ih =>
      obtain ⟨hopen, htail⟩ := balancedFrom_cons_iff.1 hbody
      refine whole_cons_iff.2 ⟨fun hcut => Nat.succ_ne_zero height hcut.2, ?_⟩
      rw [nestingAfter_succ hopen]
      exact ih htail

/-- A text between parentheses. -/
def grouped (body : List Char) : List Char :=
  '(' :: (body ++ [')'])

theorem balancedFrom_grouped {body : List Char} (hbody : BalancedFrom 0 body) :
    BalancedFrom 0 (grouped body) := by
  refine balancedFrom_cons_iff.2 ⟨?_, hbody.close⟩
  decide

theorem isMember_grouped {body : List Char} (hbody : BalancedFrom 0 body) :
    IsMember (grouped body) where
  whole := whole_cons_iff.2 ⟨by decide, hbody.whole_close⟩
  trimmed := by
    have hfirst : (grouped body).head? = some '(' := rfl
    have hlast : (grouped body).getLast? = some ')' := by
      rw [grouped, ← List.cons_append, List.getLast?_concat]
    rw [Text.trim_eq_self_iff, hfirst, hlast]
    decide
  solid := List.cons_ne_nil _ _

theorem groupBody?_eq_some_iff {part body : List Char} :
    groupBody? part = some body ↔ part = grouped body := by
  constructor
  · intro hgroup
    unfold groupBody? at hgroup
    split at hgroup
    · rename_i rest
      split at hgroup
      · rename_i reversed heq
        obtain rfl : reversed.reverse = body := Option.some.inj hgroup
        rw [grouped, ← List.reverse_cons, ← heq, List.reverse_reverse]
      · cases hgroup
    · cases hgroup
  · rintro rfl
    simp [groupBody?, grouped]

/-- The type of arrays of a member. -/
theorem IsMember.suffixed {part : List Char} (hpart : IsMember part) :
    IsMember (part ++ ['[', ']']) where
  whole := hpart.whole.append <|
    whole_cons_iff.2 ⟨by decide, whole_cons_iff.2 ⟨by decide, whole_nil_iff.2 rfl⟩⟩
  trimmed := by
    obtain ⟨hfirst, -⟩ := Text.trim_eq_self_iff.1 hpart.trimmed
    rw [Text.trim_eq_self_iff, List.head?_append_of_ne_nil _ hpart.solid,
      List.getLast?_append_of_ne_nil _ (List.cons_ne_nil _ _)]
    exact ⟨hfirst, by decide⟩
  solid := List.append_ne_nil_of_left_ne_nil hpart.solid _

theorem element?_suffixed (inner : List Char) : element? (inner ++ ['[', ']']) = some inner := by
  simp [element?]

theorem elementMembers_suffixed (inner : List Char) :
    elementMembers (inner ++ ['[', ']']) = (groupBody? inner).elim [inner] members := by
  rw [elementMembers, element?_suffixed]
  cases hgroup : groupBody? inner with
  | none => simp only [hgroup, Option.elim_none]
  | some body => simp only [hgroup, Option.elim_some]

/-! ## Arrays -/

theorem elementChars_suffixed {part : List Char} (hpart : IsMember part) :
    elementChars (part ++ ['[', ']']) = joinUnique ((groupBody? part).elim [part] members) := by
  have hmembers : members (part ++ ['[', ']']) = [part ++ ['[', ']']] := by
    have hjoined := members_join fun other hmem => List.mem_singleton.1 hmem ▸ hpart.suffixed
    rwa [join_singleton] at hjoined
  rw [elementChars, hmembers, List.flatMap_singleton, elementMembers_suffixed]

/-- The elements of the arrays of a type have the members of that type, each at
its first place.  A single group is left out: it would be opened. -/
theorem element_arrayOf {type : String} (hbalanced : Balanced type) (hsome : atoms type ≠ [])
    (hgroup : ∀ body, atoms type ≠ ["(" ++ body ++ ")"]) :
    element (arrayOf type) = merge type type ∧
      merge type type = union (members type.toList) := by
  have hmerge : merge type type = union (members type.toList) :=
    merge_of_nothing_new (Or.inr rfl)
  refine ⟨?_, hmerge⟩
  have hparts : ∀ part ∈ members type.toList, IsMember part :=
    fun _ => isMember_of_mem_members hbalanced.nesting_eq_zero
  rw [hmerge, element, arrayOf, String.toList_ofList, arrayChars, union]
  refine congrArg String.ofList ?_
  split
  · rename_i hnone
    exact absurd (by rw [atoms, hnone, List.map_nil]) hsome
  · rename_i part hone
    have hopen : groupBody? part = none := by
      rw [Option.eq_none_iff_forall_ne_some]
      intro body hbody
      have hwritten : String.ofList (grouped body) = "(" ++ String.ofList body ++ ")" := by
        rw [← String.toList_inj]
        simp [grouped]
      apply hgroup (String.ofList body)
      rw [atoms, hone, groupBody?_eq_some_iff.1 hbody, List.map_singleton, hwritten]
    have hpart : IsMember part := hparts part (by rw [hone]; exact List.mem_singleton.2 rfl)
    rw [elementChars_suffixed hpart, hopen, hone, Option.elim_none]
  · have hbody : BalancedFrom 0 (join (members type.toList)) :=
      BalancedFrom.join hbalanced.members
    have hgrouped : '(' :: join (members type.toList) ++ [')', '[', ']'] =
        grouped (join (members type.toList)) ++ ['[', ']'] := by
      simp [grouped]
    rw [hgrouped, elementChars_suffixed (isMember_grouped hbody),
      groupBody?_eq_some_iff.2 rfl, Option.elim_some, members_join hparts]

def nestedGroups : String := " (A|(B|C)[])[] |D|D"

/-- Groups in the type are left as they are. -/
theorem element_arrayOf_nestedGroups :
    Balanced nestedGroups ∧ atoms nestedGroups ≠ [] ∧
      (∀ body, atoms nestedGroups ≠ ["(" ++ body ++ ")"]) ∧
      arrayOf nestedGroups = "((A|(B|C)[])[]|D|D)[]" ∧
      element (arrayOf nestedGroups) = "(A|(B|C)[])[]|D" := by
  have hbalanced : Balanced nestedGroups := by decide
  have hatoms : atoms nestedGroups = ["(A|(B|C)[])[]", "D", "D"] := by decide +kernel
  have hsome : atoms nestedGroups ≠ [] := by
    rw [hatoms]
    exact List.cons_ne_nil _ _
  have hgroup : ∀ body, atoms nestedGroups ≠ ["(" ++ body ++ ")"] := by
    intro body
    rw [hatoms]
    simp
  refine ⟨hbalanced, hsome, hgroup, by decide +kernel, ?_⟩
  rw [(element_arrayOf hbalanced hsome hgroup).1]
  decide +kernel

/-- Between parentheses a type that is only closed falls apart. -/
example : Closed "A)|B" ∧ element (arrayOf "A)|B") = "B)" := by
  decide +kernel

end TypeExpr

end SymbolIndex
