import SymbolIndex.Proofs.TypeExpr.Balanced

/-!
# Shapes of types

A type is written from names and groups, each with array suffixes, and groups
are unions again.  These shapes can be read off what is written: cutting a union
gives back its members, taking the suffixes off a member gives back the name or
the group, and no two shapes are written alike.
-/

namespace SymbolIndex.TypeExpr

/-! ## Names -/

/-- What can stand for a class or a built-in type.  A backslash may stand before
a name, but a name is more than backslashes. -/
structure PlainName where
  chars : List Char
  plain : ∀ c ∈ chars, c ≠ '|' ∧ c ≠ '(' ∧ c ≠ ')' ∧ Text.isBlank c = false := by
    simp [Text.isBlank]
  unsuffixed : ¬ ['[', ']'] <:+ chars := by decide
  solid : ∃ c ∈ chars, c ≠ '\\' := by simp
  deriving DecidableEq

theorem balancedFrom_of_plain {chars : List Char} (hplain : ∀ c ∈ chars, c ≠ '(' ∧ c ≠ ')') :
    BalancedFrom 0 chars := by
  have hclosing : ∀ front ∈ chars.inits, front.count ')' = 0 := by
    intro front hfront
    rw [List.count_eq_zero]
    intro hmem
    exact (hplain ')' (((List.mem_inits _ _).1 hfront).subset hmem)).2 rfl
  have hopening : chars.count '(' = 0 := List.count_eq_zero.2 fun hmem => (hplain '(' hmem).1 rfl
  constructor
  · intro front hfront
    rw [hclosing front hfront]
    exact Nat.zero_le _
  · rw [hclosing chars ((List.mem_inits _ _).2 (List.prefix_refl chars)), hopening]

theorem whole_of_plain {chars : List Char} (hplain : ∀ c ∈ chars, c ≠ '|' ∧ c ≠ '(' ∧ c ≠ ')') :
    Whole 0 chars := by
  induction chars with
  | nil => exact whole_nil_iff.2 rfl
  | cons c rest ih =>
      obtain ⟨⟨hbar, hopen, hclose⟩, hrest⟩ := List.forall_mem_cons.1 hplain
      have hsame : nestingAfter 0 c = 0 := by simp [nestingAfter]
      rw [whole_cons_iff, hsame]
      exact ⟨fun hcut => hbar hcut.1, ih hrest⟩

namespace PlainName

variable (name : PlainName)

def text : String :=
  String.ofList name.chars

theorem chars_ne_nil : name.chars ≠ [] := by
  obtain ⟨c, hmem, -⟩ := name.solid
  exact List.ne_nil_of_mem hmem

theorem balanced : BalancedFrom 0 name.chars :=
  balancedFrom_of_plain fun c hmem => ⟨(name.plain c hmem).2.1, (name.plain c hmem).2.2.1⟩

theorem isMember : IsMember name.chars where
  whole := whole_of_plain fun c hmem =>
    ⟨(name.plain c hmem).1, (name.plain c hmem).2.1, (name.plain c hmem).2.2.1⟩
  trimmed := by
    have hsolid : ∀ c ∈ name.chars, Text.isBlank c = false := fun c hmem =>
      (name.plain c hmem).2.2.2
    rw [Text.trim_eq_self_iff, Option.any_eq_false, Option.any_eq_false]
    refine ⟨fun c hfirst => ?_, fun c hlast => ?_⟩
    · rw [hsolid c (List.mem_of_head? hfirst)]
    · rw [hsolid c (List.mem_of_getLast? hlast)]
  solid := name.chars_ne_nil

theorem ext_chars {name other : PlainName} (heq : name.chars = other.chars) : name = other := by
  cases name
  cases other
  cases heq
  rfl

theorem head?_ne_some_open : name.chars.head? ≠ some '(' := by
  intro hopen
  exact (name.plain '(' (List.mem_of_head? hopen)).2.1 rfl

/-- A name is no group, and neither is what begins with one. -/
theorem groupBody?_append (rest : List Char) : groupBody? (name.chars ++ rest) = none := by
  rw [Option.eq_none_iff_forall_ne_some]
  intro body hbody
  have hfirst := congrArg List.head? (groupBody?_eq_some_iff.1 hbody)
  rw [List.head?_append_of_ne_nil _ name.chars_ne_nil] at hfirst
  exact name.head?_ne_some_open hfirst

theorem groupBody?_chars : groupBody? name.chars = none := by
  simpa using name.groupBody?_append []

end PlainName

/-! ## Array suffixes -/

theorem suffixes_succ (rank : Nat) : suffixes (rank + 1) = suffixes rank ++ ['[', ']'] := by
  induction rank with
  | zero => rfl
  | succ rank ih => exact congrArg (fun rest => '[' :: ']' :: rest) ih

theorem balancedFrom_suffixes (rank : Nat) : BalancedFrom 0 (suffixes rank) := by
  induction rank with
  | zero => decide
  | succ rank ih =>
      rw [suffixes_succ]
      exact ih.append (by decide)

theorem IsMember.withSuffixes {part : List Char} (hpart : IsMember part) (rank : Nat) :
    IsMember (part ++ suffixes rank) := by
  induction rank with
  | zero =>
      rw [suffixes, List.append_nil]
      exact hpart
  | succ rank ih =>
      rw [suffixes_succ, ← List.append_assoc]
      exact ih.suffixed

theorem unsuffixed_grouped (body : List Char) : ¬ ['[', ']'] <:+ grouped body := by
  rintro ⟨front, hfront⟩
  have hlast := congrArg List.getLast? hfront
  rw [List.getLast?_append_of_ne_nil _ (List.cons_ne_nil _ _), grouped, ← List.cons_append,
    List.getLast?_concat] at hlast
  cases hlast

theorem reverse_ne_of_unsuffixed {core : List Char} (hcore : ¬ ['[', ']'] <:+ core)
    (rest : List Char) : core.reverse ≠ ']' :: '[' :: rest := by
  intro heq
  refine hcore ⟨rest.reverse, ?_⟩
  rw [← List.reverse_reverse core, heq]
  simp

/-- Exactly the suffixes are taken off. -/
theorem peelReversed_append_suffixes {core : List Char} (hcore : ¬ ['[', ']'] <:+ core)
    (rank : Nat) : peelReversed (core ++ suffixes rank).reverse = (core.reverse, rank) := by
  induction rank with
  | zero =>
      rw [suffixes, List.append_nil]
      unfold peelReversed
      split
      · rename_i rest heq
        exact absurd heq (reverse_ne_of_unsuffixed hcore rest)
      · rfl
  | succ rank ih =>
      have hreversed : (core ++ suffixes (rank + 1)).reverse =
          ']' :: '[' :: (core ++ suffixes rank).reverse := by
        rw [suffixes_succ, ← List.append_assoc, List.reverse_append]
        rfl
      rw [hreversed, peelReversed, ih]

/-! ## Members -/

/-- Lists with the same images are the same, if no two items have one image. -/
theorem eq_of_map_eq_map {α β : Type} {f : α → β} {items others : List α}
    (hinjective : ∀ item ∈ items, ∀ ⦃other⦄, f item = f other → item = other)
    (heq : items.map f = others.map f) : items = others := by
  induction items generalizing others with
  | nil => exact (List.map_eq_nil_iff.1 heq.symm).symm
  | cons item rest ih =>
      obtain ⟨hitem, hrest⟩ := List.forall_mem_cons.1 hinjective
      obtain ⟨other, later, rfl, hfirst, hlater⟩ := List.map_eq_cons_iff.1 heq.symm
      rw [hitem hfirst.symm, ih hrest hlater.symm]

/-- A member of a union: a name or a union in parentheses, with array suffixes. -/
inductive Shape where
  | leaf (name : PlainName) (rank : Nat)
  | group (shapes : List Shape) (rank : Nat)

namespace Shape

/-- How a member is written. -/
def chars : Shape → List Char
  | leaf name rank => name.chars ++ suffixes rank
  | group shapes rank => grouped (join (shapes.map chars)) ++ suffixes rank

/-- The written member without its array suffixes. -/
def core : Shape → List Char
  | leaf name _ => name.chars
  | group shapes _ => grouped (join (shapes.map chars))

def rank : Shape → Nat
  | leaf _ rank => rank
  | group _ rank => rank

theorem chars_eq (shape : Shape) : shape.chars = shape.core ++ suffixes shape.rank := by
  cases shape with
  | leaf name rank => rw [chars, core, Shape.rank]
  | group shapes rank => rw [chars, core, Shape.rank]

theorem balanced_chars (shape : Shape) : BalancedFrom 0 shape.chars := by
  fun_induction chars shape with
  | case1 name rank => exact name.balanced.append (balancedFrom_suffixes rank)
  | case2 shapes rank ih =>
      have hshapes : ∀ part ∈ shapes.map chars, BalancedFrom 0 part := List.forall_mem_map.2 ih
      exact (balancedFrom_grouped (BalancedFrom.join hshapes)).append (balancedFrom_suffixes rank)

theorem balanced_join (shapes : List Shape) : BalancedFrom 0 (join (shapes.map chars)) :=
  BalancedFrom.join (List.forall_mem_map.2 fun shape _ => shape.balanced_chars)

theorem isMember_chars (shape : Shape) : IsMember shape.chars := by
  cases shape with
  | leaf name rank =>
      rw [chars]
      exact name.isMember.withSuffixes rank
  | group shapes rank =>
      rw [chars]
      exact (isMember_grouped (balanced_join shapes)).withSuffixes rank

theorem isMember_of_mem_map {shapes : List Shape} : ∀ part ∈ shapes.map chars, IsMember part :=
  List.forall_mem_map.2 fun shape _ => shape.isMember_chars

theorem unsuffixed_core (shape : Shape) : ¬ ['[', ']'] <:+ shape.core := by
  cases shape with
  | leaf name rank => exact name.unsuffixed
  | group shapes rank => exact unsuffixed_grouped (join (shapes.map chars))

theorem base_chars (shape : Shape) : base shape.chars = shape.core := by
  rw [base, chars_eq, peelReversed_append_suffixes shape.unsuffixed_core, List.reverse_reverse]

theorem rank_chars (shape : Shape) : TypeExpr.rank shape.chars = shape.rank := by
  rw [TypeExpr.rank, chars_eq, peelReversed_append_suffixes shape.unsuffixed_core]

theorem core_rank_of_chars_eq {left right : Shape} (heq : left.chars = right.chars) :
    left.core = right.core ∧ left.rank = right.rank := by
  rw [← base_chars, ← base_chars, ← rank_chars, ← rank_chars, heq]
  exact ⟨rfl, rfl⟩

/-- What is written between the parentheses of a group are the members of the group. -/
theorem members_join_chars (shapes : List Shape) :
    members (join (shapes.map chars)) = shapes.map chars :=
  members_join isMember_of_mem_map

/-- No two members are written alike. -/
theorem chars_injective : Function.Injective chars := by
  intro left
  induction left using chars.induct with
  | case1 name rank =>
      intro right heq
      obtain ⟨hcore, hrank⟩ := core_rank_of_chars_eq heq
      cases right with
      | leaf other otherRank =>
          obtain rfl : name = other := PlainName.ext_chars hcore
          obtain rfl : rank = otherRank := hrank
          rfl
      | group others otherRank =>
          exact absurd (congrArg List.head? hcore) name.head?_ne_some_open
  | case2 shapes rank ih =>
      intro right heq
      obtain ⟨hcore, hrank⟩ := core_rank_of_chars_eq heq
      cases right with
      | leaf other otherRank =>
          exact absurd (congrArg List.head? hcore.symm) other.head?_ne_some_open
      | group others otherRank =>
          have hbody : join (shapes.map chars) = join (others.map chars) :=
            List.append_cancel_right (List.cons.inj hcore).2
          have hparts : shapes.map chars = others.map chars := by
            rw [← members_join_chars, hbody, members_join_chars]
          obtain rfl : shapes = others := eq_of_map_eq_map ih hparts
          obtain rfl : rank = otherRank := hrank
          rfl

instance : DecidableEq Shape := fun left right =>
  decidable_of_iff (left.chars = right.chars) chars_injective.eq_iff

end Shape

/-! ## Types -/

/-- The type with these members. -/
def ofShapes (shapes : List Shape) : String :=
  String.ofList (join (shapes.map Shape.chars))

theorem members_ofShapes (shapes : List Shape) :
    members (ofShapes shapes).toList = shapes.map Shape.chars := by
  rw [ofShapes, String.toList_ofList]
  exact Shape.members_join_chars shapes

/-- A type has one reading. -/
theorem ofShapes_injective : Function.Injective ofShapes := by
  intro left right heq
  apply Shape.chars_injective.list_map
  rw [← members_ofShapes, heq, members_ofShapes]

theorem union_map_chars (shapes : List Shape) :
    union (shapes.map Shape.chars) = ofShapes shapes.eraseDups := by
  rw [union, joinUnique, eraseDups_map Shape.chars_injective, ofShapes]

theorem merge_ofShapes (left right : List Shape) :
    merge (ofShapes left) (ofShapes right) = ofShapes (left ++ right).eraseDups := by
  rw [merge_eq_union, members_ofShapes, members_ofShapes, ← List.map_append, union_map_chars]

end SymbolIndex.TypeExpr
