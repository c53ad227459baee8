import SymbolIndex.Proofs.Reading.Inherited
import SymbolIndex.Proofs.TypeExpr.Laws

/-!
# Declared types of properties

A property may be declared with a type, and its initialiser may be a literal that
has a type too.  The declared type stands unless it is loose, that is, a union of
the types that a comment may make more precise.  A loose one gives way to the
type of the literal as it would to that of a comment.
-/

namespace SymbolIndex.Reading

open SymbolIndex.Symbol SymbolIndex.TypeExpr

/-! ## Loose types -/

/-- Another type replaces a declared one only where that is loose. -/
theorem chooseType_eq_declared_iff {declared other : String} (hdeclared : declared ≠ "") :
    chooseType declared other = declared ↔
      (isLoose declared = true → other = "" ∨ other = declared) := by
  rw [chooseType, if_neg hdeclared]
  by_cases hother : other = ""
  · simp [hother]
  · cases hloose : isLoose declared with
    | false => simp
    | true => simp [hother]

/-- What is chosen is one of the two. -/
theorem chooseType_cases (declared other : String) :
    chooseType declared other = declared ∨ chooseType declared other = other := by
  rw [chooseType]
  split
  · exact Or.inl rfl
  · split
    · exact Or.inr rfl
    · split
      · exact Or.inr rfl
      · exact Or.inl rfl

theorem isLoose_iff {type : String} :
    isLoose type = true ↔ ∀ atom ∈ atoms type, asciiLowered atom ∈ looseTypes := by
  simp [isLoose]

/-- A union is loose if its parts are. -/
theorem isLoose_merge {left right : String} (hleft : Closed left) (hright : Closed right) :
    isLoose (merge left right) = (isLoose left && isLoose right) := by
  rw [Bool.eq_iff_iff, Bool.and_eq_true, isLoose_iff, isLoose_iff, isLoose_iff]
  simp only [mem_atoms_merge hleft hright, or_imp, forall_and]

theorem isLoose_mergeAll {types : List String} (htypes : ∀ type ∈ types, Closed type) :
    isLoose (mergeAll types) = types.all isLoose := by
  induction types using List.reverseRecOn with
  | nil => rfl
  | append_singleton types type ih =>
      obtain ⟨hearlier, hlast⟩ := List.forall_mem_append.1 htypes
      rw [mergeAll_concat, isLoose_merge (closed_mergeAll hearlier)
        (List.forall_mem_singleton.1 hlast), ih hearlier, List.all_append, List.all_cons,
        List.all_nil, Bool.and_true]

/-- A type declaration is loose if all that it names is.  It does not matter
whether it has a question mark. -/
theorem isLoose_declaredType {doc : Document} {resolver : NameResolver} {tree : Tree}
    (hclosed : ∀ type ∈ tree.children.filterMap (declaredMember? doc resolver), Closed type) :
    isLoose (declaredType doc resolver tree) =
      (tree.children.filterMap (declaredMember? doc resolver)).all isLoose := by
  have hnull : isLoose "null" = true := by decide
  rw [declaredType]
  split
  · rw [isLoose_merge (closed_mergeAll hclosed) (by decide), hnull, Bool.and_true,
      isLoose_mergeAll hclosed]
  · exact isLoose_mergeAll hclosed

/-! ## Literals -/

/-- The types that literals have. -/
def literalTypes : List String :=
  ["int", "float", "string", "array", "bool", "null"]

mutual

/-- A literal has one of few types, and all else has none. -/
theorem literalType_cases (doc : Document) :
    (tree : Tree) → literalType doc tree = "" ∨ literalType doc tree ∈ literalTypes
  | .token leaf => by
      rw [literalType]
      split
      all_goals decide
  | .phrase kind children => by
      have hlast := lastLiteralType_cases doc children
      cases kind
      case arrayCreationExpression => exact Or.inr (by rw [literalType]; decide)
      case constantAccessExpression =>
        rw [literalType]
        split
        all_goals decide
      case unaryExpression | encapsulatedExpression => exact hlast
      all_goals exact Or.inl rfl

theorem lastLiteralType_cases (doc : Document) :
    (trees : List Tree) → lastLiteralType doc trees = "" ∨
      lastLiteralType doc trees ∈ literalTypes
  | [] => Or.inl rfl
  | tree :: rest => by
      have htree := literalType_cases doc tree
      have hrest := lastLiteralType_cases doc rest
      rw [lastLiteralType]
      split
      · exact hrest
      · split
        · exact Or.inl rfl
        · exact htree

end

/-! ## Properties -/

variable {doc : Document} {state : DeclarationState} {tree : Tree} {symbol : Symbol}

/-- The elements of a declaration of properties. -/
def propertyElements (tree : Tree) : List Tree :=
  ((tree.childPhrase? .propertyElementList).toList.flatMap Tree.children).filter
    (·.isPhrase .propertyElement)

/-- The type of the literal that an element is initialised with; empty if there
is none. -/
def initialiserType (doc : Document) (element : Tree) : String :=
  ((initialiser? ((element.childPhrase? .propertyInitialiser).getD element)).map
    (literalType doc)).getD ""

theorem initialiserType_cases (doc : Document) (element : Tree) :
    initialiserType doc element = "" ∨ initialiserType doc element ∈ literalTypes := by
  rw [initialiserType]
  cases initialiser? ((element.childPhrase? .propertyInitialiser).getD element) with
  | none => exact Or.inl rfl
  | some value => exact literalType_cases doc value

/-- Without a comment a symbol gets the type of its initialiser. -/
theorem type_initialise_none (doc : Document) (resolver : NameResolver) (tree : Tree)
    (symbol : Symbol) :
    (initialise doc resolver tree none symbol).type =
      ((initialiser? tree).map (literalType doc)).getD symbol.type := by
  rw [initialise]
  cases initialiser? tree <;> rfl

/-- A property that is read without a comment has its type from the declaration and the
initialiser. -/
theorem exists_element_of_mem_propertiesOf_none
    (hmem : symbol ∈ propertiesOf doc state none tree) :
    ∃ element ∈ propertyElements tree, symbol.kind = .property ∧
      symbol.location = locationOf doc element ∧
      symbol.type = chooseType (childDeclaredType doc state.resolver tree)
        (initialiserType doc element) := by
  rw [propertiesOf] at hmem
  rw [propertyElements]
  cases hlist : tree.childPhrase? .propertyElementList with
  | none =>
      rw [hlist] at hmem
      exact absurd hmem List.not_mem_nil
  | some list =>
      rw [hlist] at hmem
      obtain ⟨element, hlisted, helement⟩ := List.mem_filterMap.1 hmem
      obtain ⟨name, -, rfl⟩ := Option.map_eq_some_iff.1 helement
      have htype := type_initialise_none doc state.resolver
        ((element.childPhrase? .propertyInitialiser).getD element)
        { kind := .property, name := name, location := locationOf doc element,
          scope := state.declaringType?, modifiers := memberModifiers (some tree) }
      obtain ⟨_, _, _, -, heq⟩ := exists_initialise doc state.resolver
        ((element.childPhrase? .propertyInitialiser).getD element) none
        { kind := .property, name := name, location := locationOf doc element,
          scope := state.declaringType?, modifiers := memberModifiers (some tree) }
      rw [Option.toList_some, List.flatMap_singleton]
      rw [heq] at htype ⊢
      exact ⟨element, hlisted, rfl, rfl, congrArg (chooseType _) htype⟩

/-- Properties that are added are listed, and stay listed. -/
theorem gathers_addChildren {symbols : List Symbol}
    (hscopes : ∀ owner ∈ state.opened, owner.kind.isScope = true)
    (hkinds : ∀ added ∈ symbols, added.kind ≠ .localVariable) (hmem : symbol ∈ symbols) :
    Gathers symbol (state.addChildren symbols) := by
  obtain ⟨front, back, rfl⟩ := List.append_of_mem hmem
  have hfront : ∀ owner ∈ (state.addChildren front).opened, owner.kind.isScope = true :=
    additive_isScope.children front hscopes
  have hadded : Gathers symbol ((state.addChildren front).addChild symbol) := by
    obtain ⟨added, hgathered, hall⟩ := exists_gathered_addChild (state.addChildren front) symbol
    refine ⟨additive_isScope.child _ symbol hfront, ?_⟩
    rw [hgathered, hall (hkinds symbol hmem), mem_preorderAll_append]
    exact Or.inr (mem_preorderAll_iff.2
      ⟨symbol, List.mem_cons_self, mem_preorder_iff.2 (Or.inl rfl)⟩)
  have hbehind := (additive_gathers symbol).children back hadded
  have hsplit : state.addChildren (front ++ symbol :: back) =
      ((state.addChildren front).addChild symbol).addChildren back := by
    rw [DeclarationState.addChildren, List.foldl_append]
    rfl
  rw [hsplit]
  exact hbehind

/-- Where no comment waits, properties that are declared with a type are listed
with it, unless the type is loose and the initialiser is a literal of another
type; then it is the type of the literal. -/
theorem type_eq_declared_iff {children : List Tree} {before : DeclarationState}
    (hvisits : (declarationWalk doc).Visits doc.tree (DeclarationState.start doc)
      (.phrase .propertyDeclaration children) before)
    (hnone : before.pending = none)
    (hdeclared :
      childDeclaredType doc before.resolver (.phrase .propertyDeclaration children) ≠ "") :
    let tree := Tree.phrase .propertyDeclaration children
    let declared := childDeclaredType doc before.resolver tree
    enterDeclaration doc .propertyDeclaration tree before =
      before.addChildren (propertiesOf doc before none tree) ∧
    ∀ symbol ∈ propertiesOf doc before none tree,
      symbol ∈ (SymbolTable.ofDocument doc).symbols ∧ symbol.kind = .property ∧
      ∃ element ∈ propertyElements tree, symbol.location = locationOf doc element ∧
        (symbol.type = declared ↔ (isLoose declared = true →
          initialiserType doc element = "" ∨ initialiserType doc element = declared)) ∧
        (symbol.type ≠ declared → symbol.type = initialiserType doc element ∧
          symbol.type ∈ literalTypes) := by
  intro tree declared
  have hentered : enterDeclaration doc .propertyDeclaration tree before =
      before.addChildren (propertiesOf doc before none tree) := by
    have htaken : { before with pending := none } = before := by rw [← hnone]
    rw [enterDeclaration, htaken, hnone, Option.map_none]
  refine ⟨hentered, fun symbol hmem => ?_⟩
  have hkinds : ∀ added ∈ propertiesOf doc before none tree, added.kind ≠ .localVariable := by
    intro added hadded hlocal
    obtain ⟨_, -, hkind, -⟩ := exists_element_of_mem_propertiesOf_none hadded
    rw [hkind] at hlocal
    cases hlocal
  have hrun : (declarationWalk doc).run tree before =
      before.addChildren (propertiesOf doc before none tree) :=
    (Walk.run_of_passes rfl children before).trans hentered
  have hgathers : Gathers symbol ((declarationWalk doc).run tree before) := by
    rw [hrun]
    exact gathers_addChildren (isScope_of_mem_opened hvisits) hkinds hmem
  obtain ⟨element, helement, hkind, hlocation, htype⟩ :=
    exists_element_of_mem_propertiesOf_none hmem
  refine ⟨mem_symbols_of_gathers hvisits hgathers, hkind, element, helement, hlocation, ?_, ?_⟩
  · rw [htype]
    exact chooseType_eq_declared_iff hdeclared
  · intro hother
    have hliteral : symbol.type = initialiserType doc element := by
      rw [htype] at hother ⊢
      exact (chooseType_cases declared _).resolve_left hother
    refine ⟨hliteral, ?_⟩
    rw [hliteral]
    apply (initialiserType_cases doc element).resolve_left
    intro hunknown
    rw [htype, hunknown] at hother
    exact hother (if_pos rfl)

/-- A class with a property of a given type and value. -/
def typedProperty (type value : String) : Document :=
  Snippet.document "a" ("<?php class A \x7b public " ++ type ++ " $x = " ++ value ++ "; \x7d")
    [Snippet.classDeclaration [] "A" none []
      [Snippet.property ["public"] (some type) "$x" (some value)]]

/-- A declaration of one property that is read without a comment, with the declared type and the
type that is listed. -/
def ReadsProperty (doc : Document) (declared listed : String) : Prop :=
  ∃ visit ∈ (declarationWalk doc).visited doc.tree (DeclarationState.start doc),
    visit.1.phraseKind? = some .propertyDeclaration ∧ visit.2.pending.isNone = true ∧
      childDeclaredType doc visit.2.resolver visit.1 = declared ∧
      (propertiesOf doc visit.2 none visit.1).map (·.type) = [listed]

instance (doc : Document) (declared listed : String) :
    Decidable (ReadsProperty doc declared listed) :=
  inferInstanceAs (Decidable (∃ _ ∈ _, _))

/-- The value of a property of a type that is not loose may be a literal of another type. -/
theorem type_eq_declared_iff_nullable :
    ∃ children before, (declarationWalk (typedProperty "?int" "null")).Visits
        (typedProperty "?int" "null").tree (DeclarationState.start (typedProperty "?int" "null"))
        (.phrase .propertyDeclaration children) before ∧
      before.pending = none ∧
      childDeclaredType (typedProperty "?int" "null") before.resolver
        (.phrase .propertyDeclaration children) = "int|null" ∧
      ∃ symbol ∈ (SymbolTable.ofDocument (typedProperty "?int" "null")).symbols,
        symbol.kind = .property ∧ symbol.type = "int|null" := by
  have hreads : ReadsProperty (typedProperty "?int" "null") "int|null" "int|null" := by
    decide +kernel
  obtain ⟨⟨part, before⟩, hmem, hkind, hnone, hdeclared, htypes⟩ := hreads
  have hvisits := Walk.visits_of_mem_visited _ hmem
  cases part with
  | token _ => cases hkind
  | phrase kind children =>
      obtain rfl := Option.some.inj hkind
      have hwaiting := Option.isNone_iff_eq_none.1 hnone
      obtain ⟨symbol, hlisted, -⟩ := List.map_eq_singleton_iff.1 htypes
      have hbuilt : symbol ∈ propertiesOf (typedProperty "?int" "null") before none
          (.phrase .propertyDeclaration children) := by
        rw [hlisted]
        exact List.mem_singleton_self symbol
      obtain ⟨hsymbol, hproperty, element, -, -, hiff, -⟩ :=
        (type_eq_declared_iff hvisits hwaiting (by rw [hdeclared]; decide)).2 symbol hbuilt
      have htype := hiff.2 fun hloose => absurd hloose (by rw [hdeclared]; decide)
      exact ⟨children, before, hvisits, hwaiting, hdeclared, symbol, hsymbol, hproperty,
        htype.trans hdeclared⟩

/-- A loose type gives way to the type of a literal, also of one that is null. -/
theorem literal_replaces_declared_type :
    ReadsProperty (typedProperty "?array" "null") "array|null" "null" ∧
      ((SymbolTable.ofDocument (typedProperty "?array" "null")).symbols.filter
        (·.kind == .property)).map (·.type) = ["null"] ∧
      ReadsProperty (typedProperty "mixed" "1") "mixed" "int" := by
  decide +kernel

end SymbolIndex.Reading
