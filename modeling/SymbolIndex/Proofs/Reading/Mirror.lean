import SymbolIndex.Proofs.Reading.Children
import SymbolIndex.Proofs.Reading.Walk

/-!
# The symbol tree mirrors the declarations

The functions, methods, closures and class-like declarations of a syntax tree
nest in each other.  The symbols that are read from it nest in the same way: the
symbol of a declaration stands below that of the nearest declaration around it,
and next to the others in document order.
-/

namespace SymbolIndex

/-! ## Declarations of a tree -/

namespace Reading

variable (doc : Document)

/-- Phrases below which no declaration is read: those with errors, headers, names,
imports, traits that are used, constants and properties. -/
def hidesDeclarations : PhraseKind → Bool
  | .error | .functionDeclarationHeader | .methodDeclarationHeader | .anonymousFunctionHeader
  | .classDeclarationHeader | .interfaceDeclarationHeader | .traitDeclarationHeader
  | .namespaceName | .namespaceUseDeclaration | .traitUseClause | .constDeclaration
  | .classConstDeclaration | .propertyDeclaration => true
  | _ => false

/-- The kind of symbol that a phrase declares, if it is a declaration. -/
def declaredKind? (kind : PhraseKind) (name : String) : Option SymbolKind :=
  match kind with
  | .functionDeclaration | .anonymousFunctionCreationExpression => some .function
  | .methodDeclaration => some (methodKind name)
  | .classDeclaration => some .classType
  | .interfaceDeclaration => some .interfaceType
  | .traitDeclaration => some .traitType
  | _ => none

/-- Functions, methods, closures and class-like declarations. -/
def declaresScope : PhraseKind → Bool
  | .functionDeclaration | .methodDeclaration | .anonymousFunctionCreationExpression
  | .classDeclaration | .interfaceDeclaration | .traitDeclaration => true
  | _ => false

theorem declaredKind?_eq_none {kind : PhraseKind} (hplain : declaresScope kind = false)
    (name : String) : declaredKind? kind name = none := by
  cases kind
  all_goals
    first
    | rfl
    | cases hplain

theorem exists_declaredKind? {kind : PhraseKind} (hdeclares : declaresScope kind = true)
    (name : String) : ∃ declared, declaredKind? kind name = some declared := by
  cases kind
  all_goals
    first
    | exact ⟨_, rfl⟩
    | cases hdeclares

theorem hidesDeclarations_of_declaresScope {kind : PhraseKind}
    (hdeclares : declaresScope kind = true) : hidesDeclarations kind = false := by
  cases kind
  all_goals
    first
    | rfl
    | cases hdeclares

/-- The name in the header of a declaration, empty if there is none. -/
def declaredName (kind : PhraseKind) (tree : Tree) : String :=
  match kind with
  | .anonymousFunctionCreationExpression => closureName
  | .methodDeclaration =>
    ((tree.childPhrase? .methodDeclarationHeader).bind fun header =>
      childNameText? doc header .identifier).getD ""
  | .functionDeclaration =>
    ((tree.childPhrase? .functionDeclarationHeader).bind fun header =>
      childTokenText? doc header .plainName).getD ""
  | kind =>
    ((tree.childPhrase? (classHeaderKind kind)).bind fun header =>
      childTokenText? doc header .plainName).getD ""

end Reading

namespace Tree

variable (doc : Document)

mutual

/-- The nests of the declarations in a tree that no phrase hides. -/
def nests : Tree → List Nest
  | token _ => []
  | phrase kind children =>
    let inner := if Reading.hidesDeclarations kind then [] else nestsAll children
    let name := Reading.declaredName doc kind (phrase kind children)
    match Reading.declaredKind? kind name with
    | some declared =>
      [.node declared (shortName name) (Reading.locationOf doc (phrase kind children)) inner]
    | none => inner

def nestsAll : List Tree → List Nest
  | [] => []
  | tree :: rest => nests tree ++ nestsAll rest

end

end Tree

namespace Reading

open SymbolIndex.Symbol

variable {doc : Document}

/-! ## Phrases that open nothing -/

/-- A phrase that is no declaration adds nothing to the nests where it is entered. -/
theorem extends_enterDeclaration {state : DeclarationState} (hsound : state.Sound)
    {kind : PhraseKind} {tree : Tree}
    (hplain : declaredKind? kind (declaredName doc kind tree) = none) :
    state.Extends [] (enterDeclaration doc kind tree state) := by
  have htaken : state.Extends [] { state with pending := none } := hsound.extends_of_same rfl rfl
  cases kind
  case namespaceDefinition => exact hsound.enterNamespace tree
  case namespaceUseDeclaration =>
    exact hsound.declareImports fun symbol hmem scope => plain_importsOf tree scope symbol hmem
  case constDeclaration =>
    exact htaken.trans (htaken.sound.addChildren (plain_constantsOf state _ tree _))
  case propertyDeclaration =>
    exact htaken.trans (htaken.sound.addChildren (plain_propertiesOf state _ tree))
  case classConstDeclaration =>
    exact htaken.trans (htaken.sound.addChildren (plain_classConstantsOf state _ tree))
  case traitUseClause => exact hsound.useTraits tree
  case functionCallExpression => exact hsound.addChildren (plain_definedConstant? tree _)
  case simpleAssignmentExpression | byRefAssignmentExpression | compoundAssignmentExpression |
      foreachKey | foreachValue => exact hsound.declareTargets _
  case catchClause => exact hsound.declareCaught tree
  -- The others are declarations, or nothing that is read.
  all_goals
    first
    | exact hsound.extends_of_same rfl rfl
    | cases hplain

/-- Leaving a phrase that opens nothing adds nothing. -/
theorem extends_leaveDeclaration {state : DeclarationState} (hsound : state.Sound)
    {kind : PhraseKind} {tree : Tree}
    (hplain : declaredKind? kind (declaredName doc kind tree) = none) :
    state.Extends [] (leaveDeclaration kind tree state) := by
  cases kind
  case namespaceDefinition =>
    rw [leaveDeclaration]
    split
    · exact hsound.extends_of_same rfl rfl
    · exact hsound.extends_of_same rfl rfl
  all_goals
    first
    | exact hsound.extends_of_same rfl rfl
    | cases hplain

/-! ## Functions, methods and closures -/

theorem isDeclaration_of_written {symbol : Symbol} (hkind : symbol.kind.isScope = true)
    (hwritten : symbol.modifiers.Written) : symbol.isDeclaration = true := by
  have huse := Modifiers.containsAll_of_meets (by decide) hwritten.isUse
  have hmagic := Modifiers.containsAll_of_meets (by decide) hwritten.magic
  rw [Symbol.isDeclaration, isUse, hkind, huse, hmagic]
  rfl

/-- A written scope may be opened, if nothing below it is a declaration. -/
theorem opens_of_plain {state : DeclarationState} {symbol : Symbol} {scope : Option String}
    (hkind : symbol.kind.isScope = true) (hwritten : symbol.modifiers.Written)
    (hplain : ∀ child ∈ symbol.children, child.Plain scope)
    (huse : ∀ child ∈ symbol.children, child.kind = .localVariable → child.isUse = true)
    (hscope : symbol.kind.isClassLike = true → scope = some (shortName symbol.name))
    (hmember : symbol.kind.isMember = true → symbol.scope = state.declaringType?) :
    state.Opens symbol where
  declaration := isDeclaration_of_written hkind hwritten
  tidy := tidy_of_plain hplain huse hscope
  empty := nestsAll_eq_nil fun child hchild => (hplain child hchild).plain
  members := hmember

/-- What a function-like symbol starts with: a parameter, or for a closure what
it takes from around it. -/
structure IsArgument (symbol : Symbol) : Prop where
  leaf : symbol.children = []
  isVariable : symbol.kind.isVariable = true
  captured : symbol.kind = .localVariable → symbol.isUse = true

/-- Parameters are what a function starts with. -/
theorem isArgument_of_mem_parametersOf {resolver : NameResolver} {comment : Option DocComment}
    {header : Tree} :
    ∀ symbol ∈ parametersOf doc resolver comment header, IsArgument symbol := by
  intro symbol hmem
  obtain ⟨element, -, hread, hkind⟩ := exists_element_of_mem_parametersOf hmem
  refine ⟨hread.children, by rw [hkind]; rfl, ?_⟩
  rw [hkind]
  exact nofun

theorem isArgument_of_mem_capturedBy {header? : Option Tree} :
    ∀ symbol ∈ capturedBy doc header?, IsArgument symbol := by
  intro symbol hmem
  obtain ⟨leaf, hcaptured⟩ := exists_captured_of_mem_capturedBy hmem
  exact ⟨hcaptured.children, by rw [hcaptured.kind]; rfl, fun _ => hcaptured.isUse⟩

/-- A signature leaves the head of a symbol as it is. -/
theorem sameHead_withSignature (doc : Document) (resolver : NameResolver) (header? : Option Tree)
    (comment : Option DocComment) (symbol : Symbol) :
    symbol.SameHead (withSignature doc resolver header? comment symbol) := by
  cases header? with
  | none => exact ⟨rfl, rfl, rfl, rfl, rfl⟩
  | some header => exact ⟨rfl, rfl, rfl, rfl, rfl⟩

theorem isArgument_of_withSignature {resolver : NameResolver} {header? : Option Tree}
    {comment : Option DocComment} {symbol : Symbol} (hnone : symbol.children = []) :
    ∀ child ∈ (withSignature doc resolver header? comment symbol).children, IsArgument child := by
  cases header? with
  | none =>
      have hsame : (withSignature doc resolver none comment symbol).children = [] := hnone
      rw [hsame]
      exact fun _ hmem => absurd hmem List.not_mem_nil
  | some header =>
      rw [withSignature, hnone]
      exact isArgument_of_mem_parametersOf

/-- A function may be opened with its parameters. -/
theorem opens_of_arguments {state : DeclarationState} {symbol : Symbol}
    (hkind : symbol.kind.isScope = true) (hfunction : symbol.kind.isClassLike = false)
    (hwritten : symbol.modifiers.Written)
    (harguments : ∀ child ∈ symbol.children, IsArgument child)
    (hmember : symbol.kind.isMember = true → symbol.scope = state.declaringType?) :
    state.Opens symbol := by
  have hplain : ∀ child ∈ symbol.children, child.Plain none := fun child hchild =>
    plain_of_isVariable (harguments child hchild).isVariable (harguments child hchild).leaf
  refine opens_of_plain hkind hwritten hplain (fun child hchild => ?_) ?_ hmember
  · exact (harguments child hchild).captured
  · intro hclass
    exact absurd hclass (Bool.eq_false_iff.1 hfunction)

theorem methodKind_cases (name : String) :
    methodKind name = .constructor ∨ methodKind name = .method := by
  rw [methodKind]
  split
  · exact Or.inl rfl
  · exact Or.inr rfl

theorem opens_withSignature {state : DeclarationState} {resolver : NameResolver}
    {header? : Option Tree} {comment : Option DocComment} {symbol : Symbol}
    (hkind : symbol.kind.isScope = true) (hfunction : symbol.kind.isClassLike = false)
    (hwritten : symbol.modifiers.Written) (hnone : symbol.children = [])
    (hmember : symbol.kind.isMember = true → symbol.scope = state.declaringType?) :
    state.Opens (withSignature doc resolver header? comment symbol) := by
  have hhead := sameHead_withSignature doc resolver header? comment symbol
  apply opens_of_arguments
  · rw [hhead.kind, hkind]
  · rw [hhead.kind, hfunction]
  · rw [hhead.modifiers]
    exact hwritten
  · exact isArgument_of_withSignature hnone
  · rw [hhead.kind, hhead.scope]
    exact hmember

/-- The symbol of a declaration, as it is opened. -/
structure Mirrors (doc : Document) (kind : PhraseKind) (tree : Tree) (state : DeclarationState)
    (symbol : Symbol) : Prop where
  opens : state.Opens symbol
  declared : declaredKind? kind (declaredName doc kind tree) = some symbol.kind
  name : shortName symbol.name = shortName (declaredName doc kind tree)
  location : symbol.location = locationOf doc tree

/-- The namespace before a name does not count for the short name. -/
theorem shortName_relative (resolver : NameResolver) (name : String) :
    shortName (resolver.relative name) = shortName name := by
  rw [NameResolver.relative]
  split
  · rfl
  · have hchars : (resolver.namespaceName ++ "\\" ++ name).toList.reverse =
        name.toList.reverse ++ '\\' :: resolver.namespaceName.toList.reverse := by
      simp [String.toList_append]
    rw [shortName, shortName, shortChars, shortChars, hchars, List.takeWhile_append,
      List.takeWhile_cons_of_neg (by decide), List.append_nil]
    split
    · rename_i hwhole
      rw [(List.takeWhile_prefix _).eq_of_length hwhole]
    · rfl

/-- A function is opened as its header says. -/
theorem mirrors_functionOf (state : DeclarationState) (tree : Tree) :
    Mirrors doc .functionDeclaration tree state (functionOf doc state tree) := by
  have hhead := sameHead_withSignature doc state.resolver
    (tree.childPhrase? .functionDeclarationHeader) (state.pending.map (·.1))
    { kind := .function
      name := state.resolver.relative (declaredName doc .functionDeclaration tree)
      location := locationOf doc tree }
  exact
    { opens := opens_withSignature rfl rfl Modifiers.written_empty rfl nofun
      declared := congrArg some hhead.kind.symm
      name := (congrArg shortName hhead.name).trans (shortName_relative _ _)
      location := hhead.location }

/-- A method is opened as its header says. -/
theorem mirrors_methodOf (state : DeclarationState) (tree : Tree) :
    Mirrors doc .methodDeclaration tree state (methodOf doc state tree) := by
  have hhead := sameHead_withSignature doc state.resolver
    (tree.childPhrase? .methodDeclarationHeader) (state.pending.map (·.1))
    { kind := methodKind (declaredName doc .methodDeclaration tree)
      name := declaredName doc .methodDeclaration tree
      location := locationOf doc tree
      scope := state.declaringType?
      modifiers := memberModifiers (tree.childPhrase? .methodDeclarationHeader) }
  have hkinds : (methodKind (declaredName doc .methodDeclaration tree)).isScope = true ∧
      (methodKind (declaredName doc .methodDeclaration tree)).isClassLike = false := by
    rcases methodKind_cases (declaredName doc .methodDeclaration tree) with heq | heq
    · rw [heq]
      exact ⟨rfl, rfl⟩
    · rw [heq]
      exact ⟨rfl, rfl⟩
  exact
    { opens := opens_withSignature hkinds.1 hkinds.2 (written_memberModifiers _) rfl fun _ => rfl
      declared := congrArg some hhead.kind.symm
      name := congrArg shortName hhead.name
      location := hhead.location }

/-- A closure is opened under its own name. -/
theorem mirrors_closureOf (state : DeclarationState) (tree : Tree) :
    Mirrors doc .anonymousFunctionCreationExpression tree state (closureOf doc state tree) := by
  have hhead := sameHead_withSignature doc state.resolver
    (tree.childPhrase? .anonymousFunctionHeader) (state.pending.map (·.1))
    { kind := .function
      name := closureName
      location := locationOf doc tree
      modifiers := .anonymous ∪
        (if ((tree.childPhrase? .anonymousFunctionHeader).bind
          (·.childToken? .staticKeyword)).isSome then .isStatic else .empty) }
  have hwritten : (closureOf doc state tree).modifiers.Written := by
    have hmodifiers : (closureOf doc state tree).modifiers = _ := hhead.modifiers
    rw [hmodifiers]
    refine Modifiers.Written.union ⟨by decide, by decide⟩ ?_
    split
    · exact ⟨by decide, by decide⟩
    · exact Modifiers.written_empty
  have hkind : (closureOf doc state tree).kind = .function := hhead.kind
  refine ⟨opens_of_arguments ?_ ?_ hwritten ?_ ?_, ?_, ?_, hhead.location⟩
  · rw [hkind]
    rfl
  · rw [hkind]
    rfl
  · exact List.forall_mem_append.2 ⟨isArgument_of_withSignature rfl, isArgument_of_mem_capturedBy⟩
  · rw [hkind]
    exact nofun
  · exact congrArg some hkind.symm
  · exact congrArg shortName hhead.name

/-! ## Classes, interfaces and traits -/

/-- A magic member is no declaration. -/
theorem isDeclaration_magicMember (state : DeclarationState) (range : Range) (tag : DocTag)
    (kind : SymbolKind) (modifiers : Modifiers) (children : List Symbol) :
    (magicMember doc state range tag kind modifiers children).isDeclaration = false := by
  have hmagic : (Modifiers.magic ∪ .isPublic ∪ modifiers).containsAll .magic = true :=
    Modifiers.containsAll_union (by decide)
  exact Bool.and_eq_false_iff.2 (Or.inr (congrArg (!·) hmagic))

theorem plain_magicProperty (state : DeclarationState) (range : Range) (tag : DocTag) :
    (magicProperty doc state range tag).Plain state.declaringType? :=
  plain_of_children_nil rfl (isDeclaration_magicMember _ _ _ _ _ _) nofun fun _ => rfl

theorem plain_magicMethod (state : DeclarationState) (range : Range) (tag : DocTag) :
    (magicMethod doc state range tag).Plain state.declaringType? where
  tidy := by
    have hparameters : ∀ child ∈ tag.parameters.map (magicParameter doc state range),
        child.Plain none ∧ child.kind = .parameter := by
      intro child hchild
      obtain ⟨given, -, rfl⟩ := List.mem_map.1 hchild
      exact ⟨plain_of_isVariable rfl rfl, rfl⟩
    apply tidy_of_plain fun child hchild => (hparameters child hchild).1
    · intro child hchild hlocal
      rw [(hparameters child hchild).2] at hlocal
      cases hlocal
    · exact nofun
  inner := nofun
  members := fun _ => rfl
  plain := isDeclaration_magicMember _ _ _ _ _ _

theorem sameHead_withComment (state : DeclarationState) (symbol : Symbol) :
    symbol.SameHead (withComment doc state symbol) := by
  rw [withComment]
  split
  · exact ⟨rfl, rfl, rfl, rfl, rfl⟩
  · exact ⟨rfl, rfl, rfl, rfl, rfl⟩

theorem plain_of_mem_withComment {state : DeclarationState} {symbol : Symbol}
    (hnone : symbol.children = []) :
    ∀ child ∈ (withComment doc state symbol).children,
      child.Plain state.declaringType? ∧ child.kind ≠ .localVariable := by
  intro child hchild
  rw [withComment] at hchild
  split at hchild
  · rw [hnone] at hchild
    exact absurd hchild List.not_mem_nil
  · rw [hnone, List.nil_append] at hchild
    rcases List.mem_append.1 hchild with hproperty | hmethod
    · obtain ⟨tag, -, rfl⟩ := List.mem_map.1 hproperty
      exact ⟨plain_magicProperty state _ tag, nofun⟩
    · obtain ⟨tag, -, rfl⟩ := List.mem_map.1 hmethod
      exact ⟨plain_magicMethod state _ tag, nofun⟩

/-- The symbol with which a class-like declaration is opened. -/
def openedClass (doc : Document) (kind : PhraseKind) (tree : Tree) (state : DeclarationState) :
    Symbol :=
  let symbol := classLikeOf doc state.resolver kind tree
  withComment doc { state with resolver := state.resolver.enterClass symbol } symbol

theorem written_classLikeOf (resolver : NameResolver) (kind : PhraseKind) (tree : Tree) :
    (classLikeOf doc resolver kind tree).modifiers.Written := by
  have hgiven : ∀ list? : Option Tree,
      ((list?.map modifiersOf).getD Modifiers.empty).Written := by
    rintro (_ | list)
    · exact Modifiers.written_empty
    · exact written_modifiersOf list
  exact hgiven _

/-- A class is opened as its header says. -/
theorem mirrors_openedClass (state : DeclarationState) {kind : PhraseKind}
    (hkind : kind = .classDeclaration ∨ kind = .interfaceDeclaration ∨ kind = .traitDeclaration)
    (tree : Tree) : Mirrors doc kind tree state (openedClass doc kind tree state) := by
  have hhead : (classLikeOf doc state.resolver kind tree).SameHead
      (openedClass doc kind tree state) := sameHead_withComment _ _
  have hclass : (classKind kind).isScope = true ∧ (classKind kind).isMember = false ∧
      ∀ name, declaredKind? kind name = some (classKind kind) := by
    rcases hkind with rfl | rfl | rfl
    all_goals exact ⟨rfl, rfl, fun _ => rfl⟩
  have hname : declaredName doc kind tree =
      ((tree.childPhrase? (classHeaderKind kind)).bind fun header =>
        childTokenText? doc header .plainName).getD "" := by
    rcases hkind with rfl | rfl | rfl
    all_goals rfl
  have hopenedKind : (openedClass doc kind tree state).kind = classKind kind := hhead.kind
  have hplain : ∀ child ∈ (openedClass doc kind tree state).children,
      child.Plain _ ∧ child.kind ≠ .localVariable := plain_of_mem_withComment rfl
  refine ⟨opens_of_plain ?_ ?_ (fun child hchild => (hplain child hchild).1) ?_ ?_ ?_, ?_, ?_,
    hhead.location⟩
  · rw [hopenedKind, hclass.1]
  · rw [hhead.modifiers]
    exact written_classLikeOf _ _ _
  · exact fun child hchild hlocal => absurd hlocal (hplain child hchild).2
  · intro _
    rw [hhead.name]
    rfl
  · rw [hopenedKind, hclass.2.1]
    exact nofun
  · rw [hopenedKind, hclass.2.2]
  · rw [hname, hhead.name]
    exact shortName_relative _ _

/-! ## From entering to leaving -/

/-- What holds between the states before and after a tree. -/
def Mirrored (doc : Document) (tree : Tree) (before after : DeclarationState) : Prop :=
  before.Sound → before.Extends (tree.nests doc) after

def MirroredAll (doc : Document) (trees : List Tree) (before after : DeclarationState) : Prop :=
  before.Sound → before.Extends (Tree.nestsAll doc trees) after

theorem hidesDeclarations_eq (kind : PhraseKind) :
    hidesDeclarations kind = !descendsForDeclarations kind := by
  cases kind
  all_goals rfl

/-- A declaration makes one nest, under the name of its symbol. -/
theorem nests_of_mirrors {kind : PhraseKind} {children : List Tree} {state : DeclarationState}
    {symbol : Symbol} (hmirrors : Mirrors doc kind (.phrase kind children) state symbol)
    (hdescends : descendsForDeclarations kind = true) :
    (Tree.phrase kind children).nests doc =
      [.node symbol.kind (shortName symbol.name) symbol.location
        (Tree.nestsAll doc children)] := by
  rw [Tree.nests, hmirrors.declared, hidesDeclarations_eq, hdescends, hmirrors.name,
    hmirrors.location]
  rfl

/-- A phrase that declares nothing has the nests of its children, if it hides none. -/
theorem nests_of_plain {kind : PhraseKind} {children : List Tree}
    (hplain : declaredKind? kind (declaredName doc kind (.phrase kind children)) = none) :
    (Tree.phrase kind children).nests doc =
      if descendsForDeclarations kind then Tree.nestsAll doc children else [] := by
  rw [Tree.nests, hplain, hidesDeclarations_eq]
  cases descendsForDeclarations kind
  all_goals rfl

variable {kind : PhraseKind} {children : List Tree} {state inside : DeclarationState}

theorem resolver_closeSymbol (state : DeclarationState) :
    state.closeSymbol.resolver = state.resolver := by
  rw [DeclarationState.closeSymbol]
  split
  · rfl
  · rw [DeclarationState.resolver_addChild]

/-- Functions, methods and closures. -/
def declaresFunction : PhraseKind → Bool
  | .functionDeclaration | .methodDeclaration | .anonymousFunctionCreationExpression => true
  | _ => false

theorem isClassLike_of_declaresFunction (hkind : declaresFunction kind = true) {name : String}
    {declared : SymbolKind} (hdeclared : declaredKind? kind name = some declared) :
    declared.isClassLike = false := by
  cases kind
  case functionDeclaration | anonymousFunctionCreationExpression =>
    cases hdeclared
    rfl
  case methodDeclaration =>
    obtain rfl := Option.some.inj hdeclared
    rcases methodKind_cases name with heq | heq
    · rw [heq]
      rfl
    · rw [heq]
      rfl
  all_goals cases hkind

/-- A function adds one nest with all that is declared inside. -/
theorem extends_closeSymbol (hsound : state.Sound) (hkind : declaresFunction kind = true)
    (hdescends : descendsForDeclarations kind = true)
    {symbolOf : DeclarationState → Tree → Symbol}
    (hmirrors : Mirrors doc kind (.phrase kind children) state
      (symbolOf state (.phrase kind children)))
    (hchildren : MirroredAll doc children
      (openFunction symbolOf (.phrase kind children) state) inside) :
    state.Extends ((Tree.phrase kind children).nests doc) inside.closeSymbol := by
  have hnames : classNames [symbolOf state (.phrase kind children)] = [] := by
    rw [classNames, List.filter_cons,
      isClassLike_of_declaresFunction hkind hmirrors.declared]
    rfl
  have hentered : (openFunction symbolOf (.phrase kind children) state).Sound := by
    refine DeclarationState.sound_of_opened hsound hmirrors.opens rfl ?_
    rw [hnames]
    rfl
  have hinside := hchildren hentered
  have hclasses : inside.closeSymbol.resolver.classes = state.resolver.classes := by
    rw [resolver_closeSymbol, hinside.classes]
    rfl
  rw [nests_of_mirrors hmirrors hdescends]
  exact hsound.close hmirrors.opens hinside.sound hinside.stack hclasses

/-- A class adds one nest with all that is declared inside. -/
theorem extends_closeClass (hsound : state.Sound)
    (hkind : kind = .classDeclaration ∨ kind = .interfaceDeclaration ∨ kind = .traitDeclaration)
    (hdescends : descendsForDeclarations kind = true)
    (hchildren : MirroredAll doc children
      (openClassLike doc kind (.phrase kind children) state) inside) :
    state.Extends ((Tree.phrase kind children).nests doc)
      { inside.closeSymbol with resolver := inside.resolver.leaveClass } := by
  have hmirrors : Mirrors doc kind (.phrase kind children) state
      (openedClass doc kind (.phrase kind children) state) := mirrors_openedClass state hkind _
  have hclass : (openedClass doc kind (.phrase kind children) state).kind.isClassLike = true := by
    have hdeclared := hmirrors.declared
    rcases hkind with rfl | rfl | rfl
    all_goals
      rw [← Option.some.inj hdeclared]
      rfl
  have hname : (openedClass doc kind (.phrase kind children) state).name =
      (classLikeOf doc state.resolver kind (.phrase kind children)).name :=
    (sameHead_withComment _ _).name
  have hentered : (openClassLike doc kind (.phrase kind children) state).Sound := by
    refine DeclarationState.sound_of_opened hsound hmirrors.opens rfl ?_
    rw [classNames, List.filter_cons, if_pos hclass, List.map_cons, hname]
    rfl
  have hinside := hchildren hentered
  have hclasses : inside.resolver.leaveClass.classes = state.resolver.classes := by
    rw [NameResolver.leaveClass, hinside.classes]
    rfl
  rw [nests_of_mirrors hmirrors hdescends]
  exact hsound.close hmirrors.opens hinside.sound hinside.stack hclasses

/-- The walk adds the nests of every tree that it goes through. -/
theorem declarationWalk_relates_mirrored (doc : Document) :
    (declarationWalk doc).Relates (Mirrored doc) (MirroredAll doc) where
  token leaf state hsound := hsound.token leaf
  passed kind children state hpasses hsound := by
    have hplain : declaredKind? kind (declaredName doc kind (.phrase kind children)) = none := by
      cases kind
      all_goals
        first
        | rfl
        | cases hpasses
    have hdescends : descendsForDeclarations kind = false := hpasses
    rw [nests_of_plain hplain, hdescends]
    exact extends_enterDeclaration hsound hplain
  phrase kind children state inside hdescends hchildren hsound := by
    cases hdeclared : declaredKind? kind (declaredName doc kind (.phrase kind children)) with
    | none =>
        have hentered := extends_enterDeclaration hsound hdeclared
        have hinside := hentered.trans (hchildren hentered.sound)
        have hleft := hinside.trans (extends_leaveDeclaration hinside.sound hdeclared)
        rw [List.append_nil, List.nil_append] at hleft
        rw [nests_of_plain hdeclared, show descendsForDeclarations kind = true from hdescends]
        exact hleft
    | some declared =>
        cases kind
        case functionDeclaration =>
          exact extends_closeSymbol hsound rfl rfl (mirrors_functionOf _ _) hchildren
        case methodDeclaration =>
          exact extends_closeSymbol hsound rfl rfl (mirrors_methodOf _ _) hchildren
        case anonymousFunctionCreationExpression =>
          exact extends_closeSymbol hsound rfl rfl (mirrors_closureOf _ _) hchildren
        case classDeclaration =>
          exact extends_closeClass hsound (Or.inl rfl) rfl hchildren
        case interfaceDeclaration =>
          exact extends_closeClass hsound (Or.inr (Or.inl rfl)) rfl hchildren
        case traitDeclaration =>
          exact extends_closeClass hsound (Or.inr (Or.inr rfl)) rfl hchildren
        all_goals cases hdeclared
  nil state hsound := hsound.extends_of_same rfl rfl
  cons tree rest state next last htree hrest hsound := by
    have hfirst := htree hsound
    exact hfirst.trans (hrest hfirst.sound)

/-! ## The whole tree -/

theorem sound_start (doc : Document) : (DeclarationState.start doc).Sound where
  tidy := List.forall_mem_singleton.2 (tidy_of_children_nil rfl)
  containers := List.forall_mem_singleton.2 (Or.inr rfl)
  classes := rfl

/-- All that was opened has been closed at the end. -/
theorem opened_run (doc : Document) :
    ((declarationWalk doc).run doc.tree (DeclarationState.start doc)).opened = [] := by
  have hrun := (declarationWalk_relates_mirrored doc).run doc.tree _ (sound_start doc)
  have hlength := hrun.stack.sameHeads.length_eq
  apply List.eq_nil_of_length_eq_zero
  simpa [DeclarationState.stack, DeclarationState.start] using hlength

theorem root_ofDocument (doc : Document) :
    (SymbolTable.ofDocument doc).root =
      ((declarationWalk doc).run doc.tree (DeclarationState.start doc)).root := by
  have hroot : (SymbolTable.ofDocument doc).root =
      ((declarationWalk doc).run doc.tree (DeclarationState.start doc)).closeSymbols.root := rfl
  rw [hroot, DeclarationState.closeSymbols, opened_run, List.foldl_nil]

/-- So only the root is left, with all that was declared. -/
theorem grown_root (doc : Document) :
    (DeclarationState.start doc).root.Grown (doc.tree.nests doc)
      (SymbolTable.ofDocument doc).root ∧ (SymbolTable.ofDocument doc).root.Tidy := by
  have hrun := (declarationWalk_relates_mirrored doc).run doc.tree _ (sound_start doc)
  have hstack : ((declarationWalk doc).run doc.tree (DeclarationState.start doc)).stack =
      [(SymbolTable.ofDocument doc).root] := by
    rw [DeclarationState.stack, opened_run, List.nil_append, root_ofDocument]
  have hgrows := hrun.stack
  have htidy := hrun.sound.tidy
  rw [hstack] at hgrows htidy
  cases hgrows with
  | intro hroot _ => exact ⟨hroot, htidy _ List.mem_cons_self⟩

end Reading

/-- The symbols of the declarations form the same nests as the declarations of
the tree; no other symbol but the file has one of them as a child.  Members have
the short name of their class as scope, and local variables that are not taken
from outside have names that no variable before them has. -/
theorem SymbolTable.root_mirrors_declarations (doc : Document) :
    (ofDocument doc).root.kind = .file ∧ (ofDocument doc).root.name = doc.uri ∧
      Symbol.nestsAll (ofDocument doc).root.children = doc.tree.nests doc ∧
      ∀ owner ∈ (ofDocument doc).root.preorder,
        (∀ child ∈ owner.children, child.isDeclaration = true →
          owner.isDeclaration = true ∨ owner = (ofDocument doc).root) ∧
        (owner.kind.isClassLike = true → ∀ child ∈ owner.children,
          child.kind.isMember = true → child.scope = some (shortName owner.name)) ∧
        owner.children.Pairwise fun earlier later => later.kind = .localVariable →
          later.isUse = false → earlier.kind.isVariable = true → later.name ≠ earlier.name := by
  obtain ⟨hgrown, htidy⟩ := Reading.grown_root doc
  refine ⟨hgrown.kind, hgrown.name, hgrown.nests, fun owner howner => ?_⟩
  have horderly := htidy owner howner
  refine ⟨fun child hchild hdeclaration => ?_, horderly.members, horderly.distinct⟩
  refine (horderly.nested child hchild hdeclaration).imp id fun hfile => ?_
  rcases Symbol.mem_preorder_iff.1 howner with heq | hbelow
  · exact heq
  · exact absurd hfile (htidy.kind_ne_file owner hbelow)

end SymbolIndex
