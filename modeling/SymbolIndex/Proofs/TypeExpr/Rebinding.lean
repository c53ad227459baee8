import SymbolIndex.Proofs.TypeExpr.Resolving

/-!
# Late-bound types

`$this` and `static` stand for the class of the object at hand, and rebinding
puts that class in their place.  It looks at the members of a union, also below
array suffixes, but not into groups: a late-bound name stays where it stands in
a group, and comes to light when the elements of the array are taken.
-/

namespace SymbolIndex.TypeExpr

namespace PlainName

def isLateBound (name : PlainName) : Bool :=
  TypeExpr.isLateBound name.chars

/-- What a name stands for in a class: a late-bound one for the class itself. -/
def bind (className name : PlainName) : PlainName :=
  if name.isLateBound then className else name

end PlainName

theorem not_isLateBound_grouped (body : List Char) : isLateBound (grouped body) = false :=
  rfl

namespace Shape

/-- The names in a member, in groups too. -/
def names : Shape → List PlainName
  | leaf name _ => [name]
  | group shapes _ => shapes.flatMap names

/-- The names in a member that stand in a group. -/
def groupNames : Shape → List PlainName
  | leaf _ _ => []
  | group shapes rank => names (group shapes rank)

/-- A member with its name bound to a class, and its groups as they are. -/
def rebound (className : PlainName) : Shape → Shape
  | leaf name rank => leaf (className.bind name) rank
  | group shapes rank => group shapes rank

/-- What the elements of the arrays of a member can be. -/
def elements : Shape → List Shape
  | leaf _ 0 => []
  | leaf name (rank + 1) => [leaf name rank]
  | group _ 0 => []
  | group shapes 1 => shapes
  | group shapes (rank + 2) => [group shapes (rank + 1)]

/-! ## Member by member -/

/-- A member is rebound as its shape says. -/
theorem rebindMember_chars (className : PlainName) (shape : Shape) :
    rebindMember className.chars shape.chars = (shape.rebound className).chars := by
  rw [rebindMember, base_chars, rank_chars]
  cases shape with
  | leaf name rank =>
      rw [core, Shape.rank, rebound, PlainName.bind, PlainName.isLateBound]
      split
      · rw [chars]
      · rfl
  | group shapes rank =>
      rw [core, not_isLateBound_grouped, rebound]
      rfl

/-- A member without late-bound names stays as it is. -/
theorem rename_bind_eq_self {className : PlainName} {shape : Shape}
    (hfree : ∀ name ∈ shape.names, name.isLateBound = false) :
    shape.rename className.bind = shape := by
  induction shape using Shape.chars.induct with
  | case1 name rank =>
      have hname : name.isLateBound = false := hfree name (by simp [names])
      rw [rename, PlainName.bind, hname]
      rfl
  | case2 shapes rank ih =>
      rw [names, List.forall_mem_flatMap] at hfree
      have hsame : shapes.map (rename className.bind) = shapes := by
        refine (List.map_congr_left fun shape hmem => ?_).trans (List.map_id' shapes)
        exact ih shape hmem (hfree shape hmem)
      rw [rename, hsame]

/-- Where no late-bound name stands in a group, a member is rebound at every depth. -/
theorem rebound_eq_rename {className : PlainName} {shape : Shape}
    (hfree : ∀ name ∈ shape.groupNames, name.isLateBound = false) :
    shape.rebound className = shape.rename className.bind := by
  cases shape with
  | leaf name rank => rw [rebound, rename]
  | group shapes rank =>
      rw [groupNames] at hfree
      rw [rename_bind_eq_self hfree, rebound]

/-- Rebound, a member has late-bound names in its groups only. -/
theorem forall_names_rebound {className : PlainName} (hclass : className.isLateBound = false)
    (shape : Shape) :
    (∀ name ∈ (shape.rebound className).names, name.isLateBound = false) ↔
      ∀ name ∈ shape.groupNames, name.isLateBound = false := by
  cases shape with
  | leaf name rank =>
      have hbound : (className.bind name).isLateBound = false := by
        rw [PlainName.bind]
        split
        · exact hclass
        · rename_i hname
          exact Bool.eq_false_iff.2 hname
      simp [rebound, names, groupNames, hbound]
  | group shapes rank => rw [rebound, groupNames]

/-! ## Elements -/

theorem names_elements_subset {shape element : Shape} (hmem : element ∈ shape.elements) :
    element.names ⊆ shape.names := by
  unfold elements at hmem
  split at hmem
  · cases hmem
  · cases List.mem_singleton.1 hmem
    rw [names, names]
    exact List.Subset.refl _
  · cases hmem
  · rw [names]
    exact fun name hname => List.mem_flatMap.2 ⟨element, hmem, hname⟩
  · cases List.mem_singleton.1 hmem
    rw [names, names]
    exact List.Subset.refl _

theorem elementMembers_of_unsuffixed {core : List Char} (hcore : ¬ ['[', ']'] <:+ core) :
    elementMembers core = [] := by
  have hnone : element? core = none := by
    unfold element?
    split
    · rename_i rest heq
      exact absurd heq (reverse_ne_of_unsuffixed hcore rest)
    · rfl
  rw [elementMembers, hnone]

theorem elementMembers_succ (core : List Char) (rank : Nat) :
    elementMembers (core ++ suffixes (rank + 1)) =
      (groupBody? (core ++ suffixes rank)).elim [core ++ suffixes rank] members := by
  rw [suffixes_succ, ← List.append_assoc, elementMembers_suffixed]

/-- An array is no group. -/
theorem groupBody?_suffixed (part : List Char) : groupBody? (part ++ ['[', ']']) = none := by
  rw [Option.eq_none_iff_forall_ne_some]
  intro body hbody
  exact unsuffixed_grouped body ⟨part, groupBody?_eq_some_iff.1 hbody⟩

/-- The elements of a written member are those of its shape. -/
theorem elementMembers_chars (shape : Shape) :
    elementMembers shape.chars = shape.elements.map chars := by
  have hcore := shape.unsuffixed_core
  rw [chars_eq]
  fun_cases elements shape with
  | case1 name =>
      rw [core, Shape.rank, suffixes, List.append_nil]
      exact elementMembers_of_unsuffixed hcore
  | case2 name rank =>
      rw [core, Shape.rank, elementMembers_succ, name.groupBody?_append, Option.elim_none,
        List.map_singleton, chars]
  | case3 shapes =>
      rw [core, Shape.rank, suffixes, List.append_nil]
      exact elementMembers_of_unsuffixed hcore
  | case4 shapes =>
      rw [core, Shape.rank, elementMembers_succ, suffixes, List.append_nil,
        groupBody?_eq_some_iff.2 rfl, Option.elim_some]
      exact members_join_chars shapes
  | case5 shapes rank =>
      have harray :
          groupBody? (grouped (join (shapes.map chars)) ++ suffixes (rank + 1)) = none := by
        rw [suffixes_succ, ← List.append_assoc]
        exact groupBody?_suffixed _
      rw [core, Shape.rank, elementMembers_succ, harray, Option.elim_none,
        List.map_singleton, chars]

end Shape

/-! ## Types -/

/-- A type is rebound member by member, and repetitions are dropped. -/
theorem rebind_ofShapes (className : PlainName) (shapes : List Shape) :
    rebind (ofShapes shapes) className.text =
      ofShapes (shapes.map (Shape.rebound className)).eraseDups := by
  have hclass : className.text ≠ "" := by
    rw [PlainName.text, ← String.toList_inj.ne, String.toList_ofList]
    exact className.chars_ne_nil
  have hmembers : (shapes.map Shape.chars).map (rebindMember className.chars) =
      (shapes.map (Shape.rebound className)).map Shape.chars := by
    rw [List.map_map, List.map_map]
    exact List.map_congr_left fun shape _ => shape.rebindMember_chars className
  rw [rebind, if_neg hclass, members_ofShapes, PlainName.text, String.toList_ofList, hmembers,
    ← union, union_map_chars]

theorem element_ofShapes (shapes : List Shape) :
    element (ofShapes shapes) = ofShapes (shapes.flatMap Shape.elements).eraseDups := by
  have hmembers : (shapes.map Shape.chars).flatMap elementMembers =
      (shapes.flatMap Shape.elements).map Shape.chars := by
    rw [List.flatMap_map, List.map_flatMap]
    exact List.flatMap_congr fun shape _ => shape.elementMembers_chars
  rw [element, elementChars, members_ofShapes, hmembers, ← union, union_map_chars]

/-- No late-bound name stands in a group of these members. -/
def GroupsFree (shapes : List Shape) : Prop :=
  ∀ shape ∈ shapes, ∀ name ∈ shape.groupNames, name.isLateBound = false

/-- The type names no late-bound type, at any depth. -/
def FreeOfLateBound (type : String) : Prop :=
  ∃ shapes, type = ofShapes shapes ∧ ∀ shape ∈ shapes, ∀ name ∈ shape.names,
    name.isLateBound = false

theorem freeOfLateBound_ofShapes {shapes : List Shape} :
    FreeOfLateBound (ofShapes shapes) ↔
      ∀ shape ∈ shapes, ∀ name ∈ shape.names, name.isLateBound = false := by
  constructor
  · rintro ⟨others, heq, hfree⟩
    rwa [ofShapes_injective heq]
  · exact fun hfree => ⟨shapes, rfl, hfree⟩

/-- What is left of late-bound names stands in groups. -/
theorem freeOfLateBound_rebind {className : PlainName} (hclass : className.isLateBound = false)
    {shapes : List Shape} :
    FreeOfLateBound (rebind (ofShapes shapes) className.text) ↔ GroupsFree shapes := by
  rw [rebind_ofShapes, freeOfLateBound_ofShapes, GroupsFree]
  simp only [List.mem_eraseDups, List.forall_mem_map, Shape.forall_names_rebound hclass]

theorem FreeOfLateBound.element {type : String} (hfree : FreeOfLateBound type) :
    FreeOfLateBound (element type) := by
  obtain ⟨shapes, rfl, hnames⟩ := hfree
  rw [element_ofShapes, freeOfLateBound_ofShapes]
  intro element hmem
  obtain ⟨shape, hshape, helement⟩ := List.mem_flatMap.1 (List.mem_eraseDups.1 hmem)
  exact fun name hname => hnames shape hshape name (Shape.names_elements_subset helement hname)

/-- A type without late-bound names in its groups is rebound at every depth. -/
theorem rebind_eq_rename {shapes : List Shape} (hfree : GroupsFree shapes)
    (className : PlainName) :
    rebind (ofShapes shapes) className.text =
      ofShapes (shapes.map (Shape.rename className.bind)).eraseDups := by
  have hmembers : shapes.map (Shape.rebound className) =
      shapes.map (Shape.rename className.bind) :=
    List.map_congr_left fun shape hmem => Shape.rebound_eq_rename (hfree shape hmem)
  rw [rebind_ofShapes, hmembers]

end SymbolIndex.TypeExpr
