import SymbolIndex.Proofs.Reading.Mirror

/-!
# Where symbols come from

A symbol is brought into the walk where a phrase is entered.  Later it only gets
further children, and a class the traits that it uses.  So a property that
survives both holds of all symbols of the table once it holds of all that are
brought, in the states in which the walk comes to their phrases.
-/

namespace SymbolIndex.Reading

open SymbolIndex.Symbol

/-! ## What a phrase brings -/

section

variable (doc : Document)

def namespaceMarkOf (tree : Tree) : Symbol :=
  { kind := .namespaceMark
    name := (childNameText? doc tree .namespaceName).getD ""
    location := locationOf doc tree }

/-- The variables that the target of an assignment or of a loop sets. -/
def targetsOf (target? : Option Tree) : List Symbol :=
  (target?.toList.flatMap assignedTokens).map (variableOf doc "")

def caughtType (resolver : NameResolver) (tree : Tree) : String :=
  match tree.childPhrase? .catchNameList with
  | some list => TypeExpr.mergeAll (resolvedNames doc resolver list)
  | none => ""

/-- The symbols that a phrase brings where it is entered, as they are then. -/
def broughtBy (state : DeclarationState) (kind : PhraseKind) (tree : Tree) : List Symbol :=
  let comment := state.pending.map (·.1)
  match kind with
  | .namespaceDefinition => [namespaceMarkOf doc tree]
  | .namespaceUseDeclaration => importsOf doc tree
  | .constDeclaration => constantsOf doc state comment tree
  | .functionDeclaration => [functionOf doc state tree]
  | .methodDeclaration => [methodOf doc state tree]
  | .anonymousFunctionCreationExpression => [closureOf doc state tree]
  | .classDeclaration | .interfaceDeclaration | .traitDeclaration =>
    [openedClass doc kind tree state]
  | .propertyDeclaration => propertiesOf doc state comment tree
  | .classConstDeclaration => classConstantsOf doc state comment tree
  | .functionCallExpression => (definedConstant? doc tree).toList
  | .simpleAssignmentExpression | .byRefAssignmentExpression | .compoundAssignmentExpression =>
    targetsOf doc tree.children.head?
  | .foreachKey | .foreachValue => targetsOf doc (firstPhrase? tree)
  | .catchClause =>
    (tree.childToken? .variableName).toList.map
      (variableOf doc (caughtType doc state.resolver tree))
  | _ => []

end

/-- A declaration brings the symbol that it opens. -/
theorem mirrors_of_mem_broughtBy {doc : Document} {state : DeclarationState} {kind : PhraseKind}
    {tree : Tree} {symbol : Symbol} (hdeclares : declaresScope kind = true)
    (hmem : symbol ∈ broughtBy doc state kind tree) : Mirrors doc kind tree state symbol := by
  cases kind
  case functionDeclaration =>
    rw [List.mem_singleton.1 hmem]
    exact mirrors_functionOf state tree
  case methodDeclaration =>
    rw [List.mem_singleton.1 hmem]
    exact mirrors_methodOf state tree
  case anonymousFunctionCreationExpression =>
    rw [List.mem_singleton.1 hmem]
    exact mirrors_closureOf state tree
  case classDeclaration =>
    rw [List.mem_singleton.1 hmem]
    exact mirrors_openedClass state (Or.inl rfl) tree
  case interfaceDeclaration =>
    rw [List.mem_singleton.1 hmem]
    exact mirrors_openedClass state (Or.inr (Or.inl rfl)) tree
  case traitDeclaration =>
    rw [List.mem_singleton.1 hmem]
    exact mirrors_openedClass state (Or.inr (Or.inr rfl)) tree
  all_goals cases hdeclares

/-! ### What it is read from -/

/-- The variables that an assignment, a loop or a catch clause sets. -/
def targetTokens (tree : Tree) : List Token :=
  match tree.phraseKind? with
  | some .simpleAssignmentExpression | some .byRefAssignmentExpression
  | some .compoundAssignmentExpression => tree.children.head?.toList.flatMap assignedTokens
  | some .foreachKey | some .foreachValue => (firstPhrase? tree).toList.flatMap assignedTokens
  | some .catchClause => (tree.childToken? .variableName).toList
  | _ => []

/-- What is read from the elements of a declaration, or from a call that defines it. -/
def isElement : SymbolKind → Bool
  | .constant | .property | .classConstant => true
  | _ => false

theorem isScope_of_isElement {kind : SymbolKind} (hkind : isElement kind = true) :
    kind.isScope = false := by
  cases kind
  case constant | property | classConstant => rfl
  all_goals cases hkind

/-- The ways in which a phrase brings a symbol.  What a declaration opens may have
symbols below from the start, of which nothing is said here. -/
inductive Brought (doc : Document) (state : DeclarationState) (kind : PhraseKind) (tree : Tree)
    (symbol : Symbol) : Prop
  | mark (hphrase : kind = .namespaceDefinition) (hsymbol : symbol = namespaceMarkOf doc tree)
  | clause (clause : Tree) (hphrase : kind = .namespaceUseDeclaration)
      (hclause : clause ∈ tree.parts) (huse : clause.phraseKind?.any isUseClause = true)
      (hread : ReadFromClause doc clause symbol)
  | declaration (hdeclares : declaresScope kind = true)
      (hmirrors : Mirrors doc kind tree state symbol)
  | element (element : Tree)
      (hplace : element = tree ∨ element ∈ tree.parts ∧ descendsForDeclarations kind = false)
      (hread : ReadFromElement doc element (state.pending.map (·.1)) symbol)
      (hkind : isElement symbol.kind = true)
  | target (leaf : Token) (type : String) (hleaf : leaf ∈ targetTokens tree)
      (hsymbol : symbol = variableOf doc type leaf)

/-- All that a phrase brings, it brings in one of the ways of `Brought`. -/
theorem brought_of_mem_broughtBy {doc : Document} {state : DeclarationState} {kind : PhraseKind}
    {children : List Tree} {symbol : Symbol}
    (hmem : symbol ∈ broughtBy doc state kind (.phrase kind children)) :
    Brought doc state kind (.phrase kind children) symbol := by
  cases kind
  case namespaceDefinition => exact .mark rfl (List.mem_singleton.1 hmem)
  case namespaceUseDeclaration =>
    obtain ⟨clause, hclause, huse, hread⟩ := exists_readFromClause hmem
    exact .clause clause rfl hclause huse hread
  case functionDeclaration | methodDeclaration | anonymousFunctionCreationExpression |
      classDeclaration | interfaceDeclaration | traitDeclaration =>
    exact .declaration rfl (mirrors_of_mem_broughtBy rfl hmem)
  case constDeclaration =>
    obtain ⟨element, helement, hread, hkind⟩ := exists_element_of_mem_constantsOf hmem
    exact .element element (Or.inr ⟨helement, rfl⟩) hread (by rw [hkind]; rfl)
  case propertyDeclaration =>
    obtain ⟨element, helement, hread, hkind, -⟩ := exists_element_of_mem_propertiesOf hmem
    exact .element element (Or.inr ⟨helement, rfl⟩) hread (by rw [hkind]; rfl)
  case classConstDeclaration =>
    obtain ⟨element, helement, hread, hkind, -⟩ := exists_element_of_mem_classConstantsOf hmem
    exact .element element (Or.inr ⟨helement, rfl⟩) hread (by rw [hkind]; rfl)
  case functionCallExpression =>
    obtain ⟨hread, hkind⟩ := readFromElement_of_mem_definedConstant? hmem
    exact .element _ (Or.inl rfl) hread (by rw [hkind]; rfl)
  case simpleAssignmentExpression | byRefAssignmentExpression | compoundAssignmentExpression |
      foreachKey | foreachValue | catchClause =>
    obtain ⟨leaf, hleaf, rfl⟩ := List.mem_map.1 hmem
    exact .target leaf _ hleaf rfl
  -- The others bring nothing.
  all_goals exact absurd hmem List.not_mem_nil

/-! ## Properties that symbols keep -/

/-- The property outlives what becomes of a symbol while it is open. -/
structure Lasting (P : Symbol → Prop) : Prop where
  child : ∀ owner child, P owner → P child →
    P { owner with children := owner.children ++ [child] }
  traits : ∀ owner associated, P owner → P { owner with associated := associated }

/-- A property that does not depend on children or traits. -/
theorem lasting_of_same {P : Symbol → Prop}
    (hsame : ∀ owner children associated, P owner →
      P { owner with children := children, associated := associated }) : Lasting P where
  child owner _ howner _ := hsame owner _ owner.associated howner
  traits owner _ howner := hsame owner owner.children _ howner

/-- All symbols at the root behind some first ones, and all open ones, have a property. -/
structure DeclarationState.All (base : List Symbol) (P : Symbol → Prop)
    (state : DeclarationState) : Prop where
  root : ∃ added, state.root.children = base ++ added ∧ ∀ symbol ∈ added, P symbol
  opened : ∀ symbol ∈ state.opened, P symbol

namespace DeclarationState.All

variable {doc : Document} {base : List Symbol} {P : Symbol → Prop} {state : DeclarationState}

/-- Nothing has been added yet. -/
theorem refl (hopened : ∀ symbol ∈ state.opened, P symbol) : state.All state.root.children P :=
  ⟨⟨[], (List.append_nil _).symm, fun _ hmem => absurd hmem List.not_mem_nil⟩, hopened⟩

theorem start (P : Symbol → Prop) (doc : Document) : (DeclarationState.start doc).All [] P :=
  @refl P (DeclarationState.start doc) fun _ hmem => absurd hmem List.not_mem_nil

theorem root_children (hstate : state.All [] P) : ∀ symbol ∈ state.root.children, P symbol := by
  obtain ⟨added, hroot, hadded⟩ := hstate.root
  rw [hroot]
  exact hadded

/-- Only the symbols matter. -/
theorem congr (hstate : state.All base P) {other : DeclarationState}
    (hroot : other.root = state.root) (hopened : other.opened = state.opened) :
    other.All base P :=
  ⟨hroot ▸ hstate.root, hopened ▸ hstate.opened⟩

theorem openSymbol (hstate : state.All base P) {symbol : Symbol} (hsymbol : P symbol) :
    (state.openSymbol symbol).All base P :=
  ⟨hstate.root, List.forall_mem_cons.2 ⟨hsymbol, hstate.opened⟩⟩

theorem mark (hstate : state.All base P) {symbol : Symbol} (hsymbol : P symbol) :
    { state with root :=
      { state.root with children := state.root.children ++ [symbol] } }.All base P := by
  obtain ⟨added, hroot, hadded⟩ := hstate.root
  refine ⟨⟨added ++ [symbol], ?_, ?_⟩, hstate.opened⟩
  · rw [hroot, List.append_assoc]
  · exact List.forall_mem_append.2 ⟨hadded, List.forall_mem_singleton.2 hsymbol⟩

theorem token (hstate : state.All base P) (leaf : Token) :
    (declarationToken doc leaf state).All base P := by
  rw [declarationToken]
  split
  all_goals exact hstate.congr rfl rfl

variable (hlasting : Lasting P)
include hlasting

theorem addChild (hstate : state.All base P) {symbol : Symbol} (hsymbol : P symbol) :
    (state.addChild symbol).All base P := by
  rw [DeclarationState.addChild]
  split
  · rw [withChild]
    split
    · exact hstate
    · exact hstate.mark hsymbol
  · rename_i top rest htop
    have hopened := hstate.opened
    rw [htop, List.forall_mem_cons] at hopened
    refine ⟨hstate.root, List.forall_mem_cons.2 ⟨?_, hopened.2⟩⟩
    rw [withChild]
    split
    · exact hopened.1
    · exact hlasting.child top symbol hopened.1 hsymbol

theorem addChildren (hstate : state.All base P) {symbols : List Symbol}
    (hsymbols : ∀ symbol ∈ symbols, P symbol) : (state.addChildren symbols).All base P := by
  rw [DeclarationState.addChildren]
  induction symbols generalizing state with
  | nil => exact hstate
  | cons symbol rest ih =>
      obtain ⟨hfirst, hrest⟩ := List.forall_mem_cons.1 hsymbols
      exact ih (hstate.addChild hlasting hfirst) hrest

theorem declareImports (hstate : state.All base P) {imports : List Symbol}
    (himports : ∀ symbol ∈ imports, P symbol) : (imports.foldl declareImport state).All base P := by
  induction imports generalizing state with
  | nil => exact hstate
  | cons symbol rest ih =>
      obtain ⟨hfirst, hrest⟩ := List.forall_mem_cons.1 himports
      have hresolver : { state with resolver := state.resolver.addImport symbol }.All base P :=
        hstate.congr rfl rfl
      exact ih (hresolver.addChild hlasting hfirst) hrest

theorem closeSymbol (hstate : state.All base P) : state.closeSymbol.All base P := by
  rw [DeclarationState.closeSymbol]
  split
  · exact hstate
  · rename_i top rest htop
    obtain ⟨hroot, hopened⟩ := hstate
    rw [htop, List.forall_mem_cons] at hopened
    have hrest : { state with opened := rest }.All base P := ⟨hroot, hopened.2⟩
    exact hrest.addChild hlasting hopened.1

theorem closeSymbols (hstate : state.All base P) : state.closeSymbols.All base P := by
  rw [DeclarationState.closeSymbols]
  generalize state.opened = opened
  induction opened generalizing state with
  | nil => exact hstate
  | cons symbol rest ih => exact ih (hstate.closeSymbol hlasting)

theorem useTraits (hstate : state.All base P) (tree : Tree) :
    (useTraits doc tree state).All base P := by
  rw [Reading.useTraits]
  split
  · rename_i top rest htop
    split
    · have hopened := hstate.opened
      rw [htop, List.forall_mem_cons] at hopened
      exact ⟨hstate.root,
        List.forall_mem_cons.2 ⟨hlasting.traits top _ hopened.1, hopened.2⟩⟩
    · exact hstate
  · exact hstate

/-- Variables that are assigned have the property, if all that is brought has it. -/
theorem declareTargets (hstate : state.All base P) {target? : Option Tree}
    (hbrought : ∀ symbol ∈ targetsOf doc target?, P symbol) :
    (declareTargets doc target? state).All base P := by
  cases target? with
  | none => exact hstate
  | some target =>
      rw [targetsOf, Option.toList_some, List.flatMap_singleton] at hbrought
      exact hstate.addChildren hlasting hbrought

theorem declareCaught (hstate : state.All base P) {tree : Tree}
    (hbrought : ∀ symbol ∈ (tree.childToken? .variableName).toList.map
      (variableOf doc (caughtType doc state.resolver tree)), P symbol) :
    (declareCaught doc tree state).All base P := by
  rw [Reading.declareCaught]
  split
  · exact hstate
  · rename_i token htoken
    rw [htoken] at hbrought
    exact hstate.addChild hlasting (List.forall_mem_singleton.1 hbrought)

/-! ### The walk -/

/-- The property holds on, if it holds of all that the phrase brings. -/
theorem enter (hstate : state.All base P) {kind : PhraseKind} {tree : Tree}
    (hbrought : ∀ symbol ∈ broughtBy doc state kind tree, P symbol) :
    (enterDeclaration doc kind tree state).All base P := by
  have htaken : { state with pending := none }.All base P := hstate.congr rfl rfl
  have hopened : ∀ symbol, P symbol →
      { state.openSymbol symbol with pending := none }.All base P := fun symbol hsymbol =>
    (hstate.openSymbol hsymbol).congr rfl rfl
  cases kind
  case namespaceDefinition =>
    exact (hstate.mark (List.forall_mem_singleton.1 hbrought)).congr rfl rfl
  case namespaceUseDeclaration => exact hstate.declareImports hlasting hbrought
  case constDeclaration | propertyDeclaration | classConstDeclaration =>
    exact htaken.addChildren hlasting hbrought
  case functionDeclaration | methodDeclaration | anonymousFunctionCreationExpression =>
    exact hopened _ (List.forall_mem_singleton.1 hbrought)
  case classDeclaration | interfaceDeclaration | traitDeclaration =>
    exact (hopened _ (List.forall_mem_singleton.1 hbrought)).congr rfl rfl
  case traitUseClause => exact hstate.useTraits hlasting tree
  case functionCallExpression => exact hstate.addChildren hlasting hbrought
  case simpleAssignmentExpression | byRefAssignmentExpression | compoundAssignmentExpression |
      foreachKey | foreachValue => exact hstate.declareTargets hlasting hbrought
  case catchClause => exact hstate.declareCaught hlasting hbrought
  -- The others bring nothing.
  all_goals exact hstate

theorem leave (hstate : state.All base P) (kind : PhraseKind) (tree : Tree) :
    (leaveDeclaration kind tree state).All base P := by
  have hclosed := hstate.closeSymbol hlasting
  cases kind
  case functionDeclaration | methodDeclaration | anonymousFunctionCreationExpression =>
    exact hclosed
  case classDeclaration | interfaceDeclaration | traitDeclaration => exact hclosed.congr rfl rfl
  case namespaceDefinition =>
    rw [leaveDeclaration]
    split
    · exact hstate.congr rfl rfl
    · exact hstate
  all_goals exact hstate

/-- What all symbols have that are brought in a tree, all symbols have after it. -/
theorem run {tree : Tree} (hstate : state.All base P)
    (hbrought : ∀ kind children before,
      (declarationWalk doc).Visits tree state (.phrase kind children) before →
      ∀ symbol ∈ broughtBy doc before kind (.phrase kind children), P symbol) :
    ((declarationWalk doc).run tree state).All base P := by
  refine Walk.KeepsAt.run tree state ⟨?_, ?_, ?_⟩ hstate
  · exact fun leaf before _ hbefore => hbefore.token leaf
  · exact fun kind children before hvisits hbefore =>
      hbefore.enter hlasting (hbrought kind children before hvisits)
  · exact fun kind children before _ hbefore => hbefore.leave hlasting kind _

end DeclarationState.All

/-- What all symbols have that are brought in a document, all symbols of its
table have that stand at the root. -/
theorem forall_mem_root_children {doc : Document} {P : Symbol → Prop} (hlasting : Lasting P)
    (hbrought : ∀ kind children before,
      (declarationWalk doc).Visits doc.tree (DeclarationState.start doc) (.phrase kind children)
        before →
      ∀ symbol ∈ broughtBy doc before kind (.phrase kind children), P symbol) :
    ∀ symbol ∈ (SymbolTable.ofDocument doc).root.children, P symbol :=
  ((DeclarationState.All.start P doc).run hlasting hbrought |>.closeSymbols hlasting).root_children

/-! ## Properties of all symbols below -/

/-- A property of single symbols that does not depend on their children or traits. -/
theorem lasting_preorder {P : Symbol → Prop}
    (hsame : ∀ owner children associated, P owner →
      P { owner with children := children, associated := associated }) :
    Lasting fun symbol => ∀ part ∈ symbol.preorder, P part where
  child owner child howner hchild := by
    rw [forall_mem_preorder_iff] at howner ⊢
    exact ⟨hsame owner _ owner.associated howner.1,
      List.forall_mem_append.2 ⟨howner.2, List.forall_mem_singleton.2 hchild⟩⟩
  traits owner associated howner := by
    rw [forall_mem_preorder_iff] at howner ⊢
    exact ⟨hsame owner owner.children associated howner.1, howner.2⟩

end SymbolIndex.Reading
