import SymbolIndex.Proofs.Reading.UseClauses
import SymbolIndex.Proofs.Symbol.Nests
import SymbolIndex.Reading.Declarations

/-!
# Elements of declarations

A declaration of constants or properties lists elements, a header lists
parameters.  Each symbol that is read from one is located at its element, has no
modifiers but written ones, and is documented only by the comment of the whole.
-/

namespace SymbolIndex.Reading

open SymbolIndex.Symbol

variable {doc : Document} {tree : Tree} {symbol : Symbol} {comment : Option DocComment}

/-! ## Written modifiers -/

theorem written_modifierOf (kind : TokenKind) : (modifierOf kind).Written := by
  unfold modifierOf
  split
  all_goals exact ⟨by decide, by decide⟩

theorem written_modifiersOf (tree : Tree) : (modifiersOf tree).Written := by
  rw [modifiersOf]
  apply List.foldlRecOn (motive := Modifiers.Written)
  · exact Modifiers.written_empty
  · exact fun _ hwritten leaf _ => hwritten.union (written_modifierOf leaf.kind)

theorem written_memberModifiers (tree? : Option Tree) : (memberModifiers tree?).Written := by
  rw [memberModifiers]
  cases tree?.bind fun tree => tree.childPhrase? .memberModifierList with
  | none => exact Modifiers.written_empty.union ⟨by decide, by decide⟩
  | some list =>
      have hlisted := written_modifiersOf list
      dsimp only
      split
      · exact hlisted
      · exact hlisted.union ⟨by decide, by decide⟩

/-! ## Elements -/

/-- What a symbol has from the element that it is read from. -/
structure ReadFromElement (doc : Document) (element : Tree) (comment : Option DocComment)
    (symbol : Symbol) : Prop where
  location : symbol.location = locationOf doc element
  modifiers : symbol.modifiers.Written
  doc : comment = none → symbol.doc = none
  children : symbol.children = []

/-- A symbol gets a value, a type and a documentation, and stays the same otherwise. -/
theorem exists_initialise (doc : Document) (resolver : NameResolver) (tree : Tree)
    (comment : Option DocComment) (symbol : Symbol) :
    ∃ value type documentation, (comment = none → documentation = symbol.doc) ∧
      initialise doc resolver tree comment symbol =
        { symbol with value := value, type := type, doc := documentation } := by
  obtain ⟨_, _, _, _, _, _, _, _, _, _⟩ := symbol
  unfold initialise
  cases comment with
  | none =>
      cases initialiser? tree
      all_goals exact ⟨_, _, _, fun _ => rfl, rfl⟩
  | some comment =>
      cases initialiser? tree
      all_goals
        dsimp only
        split
        · exact ⟨_, _, _, nofun, rfl⟩
        · split
          · exact ⟨_, _, _, nofun, rfl⟩
          · exact ⟨_, _, _, nofun, rfl⟩

/-- What a list in a tree holds is part of the tree. -/
theorem mem_parts_of_listed {list element : Tree} {kind : PhraseKind} {p : Tree → Bool}
    (hlist : tree.childPhrase? kind = some list) (helement : element ∈ list.children.filter p) :
    element ∈ tree.parts :=
  tree.mem_parts_trans (Tree.mem_parts_of_mem_children (Tree.mem_children_of_childPhrase? hlist).1)
    (Tree.mem_parts_of_mem_children (List.mem_filter.1 helement).1)

/-- Each constant is read from an element of its own. -/
theorem exists_element_of_mem_constantsOf {state : DeclarationState}
    (hmem : symbol ∈ constantsOf doc state comment tree) :
    ∃ element ∈ tree.parts, ReadFromElement doc element comment symbol ∧
      symbol.kind = .constant := by
  rw [constantsOf] at hmem
  split at hmem
  · exact absurd hmem List.not_mem_nil
  · rename_i list hlist
    obtain ⟨element, hlisted, helement⟩ := List.mem_filterMap.1 hmem
    obtain ⟨name, -, rfl⟩ := Option.map_eq_some_iff.1 helement
    obtain ⟨value, type, documentation, hdoc, heq⟩ := exists_initialise doc state.resolver element
      comment { kind := .constant, name := state.resolver.relative name,
                location := locationOf doc element }
    rw [heq]
    exact ⟨element, mem_parts_of_listed hlist hlisted,
      ⟨rfl, Modifiers.written_empty, hdoc, rfl⟩, rfl⟩

/-- Each property is read from an element, and belongs to the type around it. -/
theorem exists_element_of_mem_propertiesOf {state : DeclarationState}
    (hmem : symbol ∈ propertiesOf doc state comment tree) :
    ∃ element ∈ tree.parts, ReadFromElement doc element comment symbol ∧
      symbol.kind = .property ∧ symbol.scope = state.declaringType? := by
  rw [propertiesOf] at hmem
  split at hmem
  · exact absurd hmem List.not_mem_nil
  · rename_i list hlist
    obtain ⟨element, hlisted, helement⟩ := List.mem_filterMap.1 hmem
    obtain ⟨name, -, rfl⟩ := Option.map_eq_some_iff.1 helement
    obtain ⟨value, type, documentation, hdoc, heq⟩ := exists_initialise doc state.resolver
      ((element.childPhrase? .propertyInitialiser).getD element) comment
      { kind := .property, name := name, location := locationOf doc element,
        scope := state.declaringType?, modifiers := memberModifiers (some tree) }
    dsimp only
    rw [heq]
    exact ⟨element, mem_parts_of_listed hlist hlisted,
      ⟨rfl, written_memberModifiers _, hdoc, rfl⟩, rfl, rfl⟩

/-- Each class constant is read from an element, and belongs to the type around it. -/
theorem exists_element_of_mem_classConstantsOf {state : DeclarationState}
    (hmem : symbol ∈ classConstantsOf doc state comment tree) :
    ∃ element ∈ tree.parts, ReadFromElement doc element comment symbol ∧
      symbol.kind = .classConstant ∧ symbol.scope = state.declaringType? := by
  rw [classConstantsOf] at hmem
  split at hmem
  · exact absurd hmem List.not_mem_nil
  · rename_i list hlist
    obtain ⟨element, hlisted, rfl⟩ := List.mem_map.1 hmem
    obtain ⟨value, type, documentation, hdoc, heq⟩ := exists_initialise doc state.resolver element
      comment
      { kind := .classConstant, name := (childNameText? doc element .identifier).getD "",
        location := locationOf doc element, scope := state.declaringType?,
        modifiers := memberModifiers (some tree) ∪ .isStatic }
    rw [classConstantOf, heq]
    exact ⟨element, mem_parts_of_listed hlist hlisted,
      ⟨rfl, (written_memberModifiers _).union ⟨by decide, by decide⟩, hdoc, rfl⟩, rfl, rfl⟩

theorem readFromElement_of_mem_definedConstant?
    (hmem : symbol ∈ (definedConstant? doc tree).toList) :
    ReadFromElement doc tree comment symbol ∧ symbol.kind = .constant := by
  rw [Option.mem_toList, definedConstant?] at hmem
  split at hmem
  · cases hmem
  · split at hmem
    · dsimp only at hmem
      split at hmem
      · cases hmem
      · cases hmem
        exact ⟨⟨rfl, Modifiers.written_empty, fun _ => rfl, rfl⟩, rfl⟩
    · cases hmem

/-- Each parameter is read from an element of the list. -/
theorem exists_element_of_mem_parametersOf {resolver : NameResolver}
    (hmem : symbol ∈ parametersOf doc resolver comment tree) :
    ∃ element ∈ tree.parts, ReadFromElement doc element comment symbol ∧
      symbol.kind = .parameter := by
  rw [parametersOf] at hmem
  split at hmem
  · exact absurd hmem List.not_mem_nil
  · rename_i list hlist
    obtain ⟨element, hlisted, rfl⟩ := List.mem_map.1 hmem
    have hwritten : (parameterOf doc resolver comment element).modifiers.Written := by
      rw [parameterOf]
      refine Modifiers.Written.union ?_ ?_
      · split
        all_goals exact ⟨by decide, by decide⟩
      · split
        all_goals exact ⟨by decide, by decide⟩
    refine ⟨element, mem_parts_of_listed hlist hlisted, ⟨rfl, hwritten, ?_, rfl⟩, rfl⟩
    rintro rfl
    rfl

/-- What a closure takes from around it has from the token that names it. -/
structure Captured (doc : Document) (leaf : Token) (symbol : Symbol) : Prop where
  kind : symbol.kind = .localVariable
  location : symbol.location = tokenLocation doc leaf
  isUse : symbol.isUse = true
  magic : symbol.modifiers.meets .magic = false
  doc : symbol.doc = none
  children : symbol.children = []

theorem exists_captured_of_mem_capturedBy {header? : Option Tree}
    (hmem : symbol ∈ capturedBy doc header?) : ∃ leaf, Captured doc leaf symbol := by
  rw [capturedBy] at hmem
  split at hmem
  · exact absurd hmem List.not_mem_nil
  · obtain ⟨element, -, helement⟩ := List.mem_filterMap.1 hmem
    obtain ⟨leaf, -, rfl⟩ := Option.map_eq_some_iff.1 helement
    refine ⟨leaf, rfl, rfl, Modifiers.containsAll_union (by decide),
      Modifiers.meets_union.2 ⟨by decide, ?_⟩, rfl, rfl⟩
    split
    all_goals decide

end SymbolIndex.Reading
