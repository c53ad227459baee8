import SymbolIndex.Proofs.Reading.Arrivals
import SymbolIndex.Proofs.Reading.Sealed
import SymbolIndex.Reading.Uses
import SymbolIndex.Tree.Snippet

/-!
# Errors stay local

Neither walk goes below a phrase with errors.  What both read from outside of it,
they read from the sealed tree as well, so documents with like trees have the same
references.  They have the same symbols, too, unless a phrase with errors stands
for an element in the target of an assignment: there the variables are read that
stand in it as the value of an element.
-/

namespace SymbolIndex

namespace Reading

open SymbolIndex.Tree

variable (doc : Document) (resolver : NameResolver) (state : DeclarationState)
  (comment : Option DocComment) {tree : Tree}

/-! ## Values, constants and properties -/

theorem initialiser?_sealed (hintact : tree.Intact) :
    initialiser? tree.sealed = (initialiser? tree).map sealed := by
  rw [initialiser?, initialiser?, childToken?_sealed hintact, children_sealed hintact]
  split
  · simp
  · rfl

theorem initialise_sealed (symbol : Symbol) (hintact : tree.Intact) :
    initialise doc resolver tree.sealed comment symbol =
      initialise doc resolver tree comment symbol := by
  simp only [initialise, initialiser?_sealed hintact]
  cases initialiser? tree with
  | none => rfl
  | some value => simp [literalType_sealed]

theorem constantsOf_sealed (hintact : tree.Intact) :
    constantsOf doc state comment tree.sealed = constantsOf doc state comment tree := by
  rw [constantsOf, constantsOf, childPhrase?_sealed hintact]
  cases hlist : tree.childPhrase? .constElementList with
  | none => rfl
  | some list =>
      apply filterMap_children_sealed (intact_of_childPhrase? hlist (by decide))
      intro element hkind
      have helement : element.Intact := intact_of_phraseKind? hkind (by decide)
      simp [childTokenText?_sealed doc helement, initialise_sealed doc _ _ _ helement, locationOf]

theorem propertyOf?_sealed (modifiers : Modifiers) (declared : String) (hintact : tree.Intact) :
    propertyOf? doc state comment modifiers declared tree.sealed =
      propertyOf? doc state comment modifiers declared tree := by
  have hinitial : ∀ symbol, initialise doc state.resolver
      ((tree.sealed.childPhrase? .propertyInitialiser).getD tree.sealed) comment symbol =
      initialise doc state.resolver ((tree.childPhrase? .propertyInitialiser).getD tree) comment
        symbol := by
    intro symbol
    rw [childPhrase?_sealed hintact]
    cases hfound : tree.childPhrase? .propertyInitialiser with
    | none => exact initialise_sealed doc _ _ _ hintact
    | some initialiser =>
        exact initialise_sealed doc _ _ _ (intact_of_childPhrase? hfound (by decide))
  simp [propertyOf?, childTokenText?_sealed doc hintact, hinitial, locationOf]

theorem propertiesOf_sealed (hintact : tree.Intact) :
    propertiesOf doc state comment tree.sealed = propertiesOf doc state comment tree := by
  have hmodifiers : memberModifiers (some tree.sealed) = memberModifiers (some tree) :=
    @memberModifiers_sealed (some tree) fun _ hsame => Option.some.inj hsame ▸ hintact
  rw [propertiesOf, propertiesOf, childPhrase?_sealed hintact, hmodifiers,
    childDeclaredType_sealed doc _ hintact]
  cases hlist : tree.childPhrase? .propertyElementList with
  | none => rfl
  | some list =>
      apply filterMap_children_sealed (intact_of_childPhrase? hlist (by decide))
      intro element hkind
      exact propertyOf?_sealed doc _ _ _ _ (intact_of_phraseKind? hkind (by decide))

theorem classConstantsOf_sealed (hintact : tree.Intact) :
    classConstantsOf doc state comment tree.sealed = classConstantsOf doc state comment tree := by
  have hmodifiers : memberModifiers (some tree.sealed) = memberModifiers (some tree) :=
    @memberModifiers_sealed (some tree) fun _ hsame => Option.some.inj hsame ▸ hintact
  rw [classConstantsOf, classConstantsOf, childPhrase?_sealed hintact, hmodifiers]
  cases hlist : tree.childPhrase? .classConstElementList with
  | none => rfl
  | some list =>
      apply map_children_sealed (intact_of_childPhrase? hlist (by decide))
      intro element hkind
      have helement : element.Intact := intact_of_phraseKind? hkind (by decide)
      simp [classConstantOf, childNameText?_sealed doc helement,
        initialise_sealed doc _ _ _ helement, locationOf]

/-! ## Functions and methods -/

theorem parameterOf_sealed (hintact : tree.Intact) :
    parameterOf doc resolver comment tree.sealed = parameterOf doc resolver comment tree := by
  simp [parameterOf, childTokenText?_sealed doc hintact, childToken?_sealed hintact,
    childDeclaredType_sealed doc _ hintact, initialiser?_sealed hintact, locationOf,
    Function.comp_def]

theorem parametersOf_sealed (hintact : tree.Intact) :
    parametersOf doc resolver comment tree.sealed = parametersOf doc resolver comment tree := by
  rw [parametersOf, parametersOf, childPhrase?_sealed hintact]
  cases hlist : tree.childPhrase? .parameterDeclarationList with
  | none => rfl
  | some list =>
      apply map_children_sealed (intact_of_childPhrase? hlist (by decide))
      intro parameter hkind
      exact parameterOf_sealed doc _ _ (intact_of_phraseKind? hkind (by decide))

theorem returnTypeOf_sealed (hintact : tree.Intact) :
    returnTypeOf doc resolver tree.sealed = returnTypeOf doc resolver tree := by
  rw [returnTypeOf, returnTypeOf, childPhrase?_sealed hintact]
  cases htype : tree.childPhrase? .returnType with
  | none => rfl
  | some type => exact childDeclaredType_sealed doc _ (intact_of_childPhrase? htype (by decide))

/-- A sealed header gives the same signature. -/
theorem withSignature_sealed {header? : Option Tree} (symbol : Symbol)
    (hintact : ∀ header ∈ header?, header.Intact) :
    withSignature doc resolver (header?.map sealed) comment symbol =
      withSignature doc resolver header? comment symbol := by
  cases header? with
  | none => rfl
  | some header =>
      have hheader := hintact header rfl
      simp [withSignature, parametersOf_sealed doc _ _ hheader, returnTypeOf_sealed doc _ hheader]

theorem functionOf_sealed (hintact : tree.Intact) :
    functionOf doc state tree.sealed = functionOf doc state tree := by
  have hheader : ∀ header ∈ tree.childPhrase? .functionDeclarationHeader, header.Intact :=
    fun header hfound => intact_of_childPhrase? hfound (by decide)
  have hname := @bind_childPhrase?_sealed _ tree .functionDeclarationHeader
    (fun header => childTokenText? doc header .plainName) hintact fun header hkind =>
      childTokenText?_sealed doc (intact_of_phraseKind? hkind (by decide)) _
  simp only [functionOf, hname, locationOf, Document.treeRange_sealed]
  rw [childPhrase?_sealed hintact, withSignature_sealed doc _ _ _ hheader]

theorem methodOf_sealed (hintact : tree.Intact) :
    methodOf doc state tree.sealed = methodOf doc state tree := by
  have hheader : ∀ header ∈ tree.childPhrase? .methodDeclarationHeader, header.Intact :=
    fun header hfound => intact_of_childPhrase? hfound (by decide)
  have hname := @bind_childPhrase?_sealed _ tree .methodDeclarationHeader
    (fun header => childNameText? doc header .identifier) hintact fun header hkind =>
      childNameText?_sealed doc (intact_of_phraseKind? hkind (by decide)) _
  simp only [methodOf, hname, locationOf, Document.treeRange_sealed]
  rw [childPhrase?_sealed hintact, withSignature_sealed doc _ _ _ hheader,
    memberModifiers_sealed hheader]

theorem captureList?_sealed (hintact : tree.Intact) :
    (tree.sealed.childPhrase? .anonymousFunctionUseClause).bind (·.childPhrase? .closureUseList) =
      ((tree.childPhrase? .anonymousFunctionUseClause).bind
        (·.childPhrase? .closureUseList)).map sealed := by
  rw [childPhrase?_sealed hintact]
  cases hclause : tree.childPhrase? .anonymousFunctionUseClause with
  | none => rfl
  | some clause => exact childPhrase?_sealed (intact_of_childPhrase? hclause (by decide)) _

/-- A closure takes the same variables from around it. -/
theorem capturedBy_sealed {header? : Option Tree}
    (hintact : ∀ header ∈ header?, header.Intact) :
    capturedBy doc (header?.map sealed) = capturedBy doc header? := by
  cases header? with
  | none => rfl
  | some header =>
      simp only [capturedBy, Option.map_some, Option.bind_some,
        captureList?_sealed (hintact header rfl)]
      cases hlist : (header.childPhrase? .anonymousFunctionUseClause).bind
          (·.childPhrase? .closureUseList) with
      | none => rfl
      | some list =>
          obtain ⟨clause, -, hfound⟩ := Option.bind_eq_some_iff.1 hlist
          apply filterMap_children_sealed (intact_of_childPhrase? hfound (by decide))
          intro captured hkind
          have hcaptured : captured.Intact := intact_of_phraseKind? hkind (by decide)
          simp [capturedOf?, childToken?_sealed hcaptured]

theorem closureOf_sealed (hintact : tree.Intact) :
    closureOf doc state tree.sealed = closureOf doc state tree := by
  have hheader : ∀ header ∈ tree.childPhrase? .anonymousFunctionHeader, header.Intact :=
    fun header hfound => intact_of_childPhrase? hfound (by decide)
  have hstatic := @bind_childPhrase?_sealed _ tree .anonymousFunctionHeader
    (·.childToken? .staticKeyword) hintact fun header hkind =>
      childToken?_sealed (intact_of_phraseKind? hkind (by decide)) _
  simp only [closureOf, hstatic, locationOf, Document.treeRange_sealed]
  rw [childPhrase?_sealed hintact, withSignature_sealed doc _ _ _ hheader,
    capturedBy_sealed doc hheader]

/-! ## Classes, interfaces and traits -/

theorem associatedNames_sealed (kind : SymbolKind) {tree? : Option Tree}
    (hintact : ∀ tree ∈ tree?, tree.Intact) :
    associatedNames doc resolver kind (tree?.map sealed) =
      associatedNames doc resolver kind tree? := by
  cases tree? with
  | none => rfl
  | some tree => simp [associatedNames, resolvedNames_sealed doc _ (hintact tree rfl)]

theorem interfaceList?_sealed (hintact : tree.Intact) :
    interfaceList? tree.sealed = (interfaceList? tree).map sealed := by
  rw [interfaceList?, interfaceList?, childPhrase?_sealed hintact, childPhrase?_sealed hintact]
  cases hclass : tree.childPhrase? .classInterfaceClause with
  | some clause => exact childPhrase?_sealed (intact_of_childPhrase? hclass (by decide)) _
  | none =>
      cases hbase : tree.childPhrase? .interfaceBaseClause with
      | some clause => exact childPhrase?_sealed (intact_of_childPhrase? hbase (by decide)) _
      | none => rfl

theorem classHeaderKind_ne_error (kind : PhraseKind) : classHeaderKind kind ≠ .error := by
  cases kind
  all_goals exact nofun

theorem classLikeOf_sealed (kind : PhraseKind) (hintact : tree.Intact) :
    classLikeOf doc resolver kind tree.sealed = classLikeOf doc resolver kind tree := by
  simp only [classLikeOf, locationOf, Document.treeRange_sealed, childPhrase?_sealed hintact]
  cases hfound : tree.childPhrase? (classHeaderKind kind) with
  | none => rfl
  | some header =>
      have hheader := intact_of_childPhrase? hfound (classHeaderKind_ne_error kind)
      have hmodifiers := @map_childPhrase?_sealed _ header .classModifiers modifiersOf hheader
        fun list hkind => modifiersOf_sealed (intact_of_phraseKind? hkind (by decide))
      rw [childPhrase?_sealed hheader] at hmodifiers
      have hbase : ∀ clause ∈ header.childPhrase? .classBaseClause, clause.Intact :=
        fun clause hclause => intact_of_childPhrase? hclause (by decide)
      have hinterfaces : ∀ list ∈ interfaceList? header, list.Intact := by
        intro list hlist
        obtain ⟨clause, -, hclause⟩ := Option.bind_eq_some_iff.1 hlist
        exact intact_of_childPhrase? hclause (by decide)
      simp only [Option.map_some, Option.bind_some, childTokenText?_sealed doc hheader, hmodifiers,
        interfaceList?_sealed hheader, childPhrase?_sealed hheader,
        associatedNames_sealed doc _ _ hbase, associatedNames_sealed doc _ _ hinterfaces]

theorem useTraits_sealed (hintact : tree.Intact) :
    useTraits doc tree.sealed state = useTraits doc tree state := by
  have hlist : ∀ list ∈ tree.childPhrase? .qualifiedNameList, list.Intact :=
    fun list hfound => intact_of_childPhrase? hfound (by decide)
  simp only [useTraits, childPhrase?_sealed hintact, associatedNames_sealed doc _ _ hlist]

/-! ## Defined constants and variables -/

theorem callsDefine_sealed (hintact : tree.Intact) :
    callsDefine doc tree.sealed = callsDefine doc tree := by
  rw [callsDefine, callsDefine, children_sealed hintact]
  cases tree.children with
  | nil => rfl
  | cons callee rest => simp

theorem argumentsOf_sealed (hintact : tree.Intact) :
    argumentsOf tree.sealed = (argumentsOf tree).map sealed := by
  rw [argumentsOf, argumentsOf, childPhrase?_sealed hintact]
  cases hlist : tree.childPhrase? .argumentExpressionList with
  | none => rfl
  | some list =>
      simp [children_sealed (intact_of_childPhrase? hlist (by decide)), List.filter_map,
        Function.comp_def]

theorem definedConstant?_sealed (hintact : tree.Intact) :
    definedConstant? doc tree.sealed = definedConstant? doc tree := by
  rw [definedConstant?, definedConstant?, callsDefine_sealed doc hintact,
    argumentsOf_sealed hintact]
  cases argumentsOf tree with
  | nil => rfl
  | cons first rest =>
      cases first with
      | token leaf =>
          cases rest with
          | nil => simp [locationOf]
          | cons value more => simp [literalType_sealed, locationOf]
      | phrase kind children => rfl

theorem declareCaught_sealed (hintact : tree.Intact) :
    declareCaught doc tree.sealed state = declareCaught doc tree state := by
  rw [declareCaught, declareCaught, childToken?_sealed hintact, childPhrase?_sealed hintact]
  cases hlist : tree.childPhrase? .catchNameList with
  | none => rfl
  | some list =>
      have hnames := resolvedNames_sealed doc state.resolver
        (intact_of_childPhrase? hlist (by decide : PhraseKind.catchNameList ≠ .error))
      simp only [Option.map_some, hnames]

theorem firstPhrase?_sealed (hintact : tree.Intact) :
    firstPhrase? tree.sealed = (firstPhrase? tree).map sealed := by
  have hphrases : (·.phraseKind?.isSome) ∘ sealed = (·.phraseKind?.isSome) :=
    funext fun child => congrArg Option.isSome (phraseKind?_sealed child)
  rw [firstPhrase?, firstPhrase?, children_sealed hintact, List.find?_map, hphrases]

/-! ## Targets of assignments -/

/-- What an assignment or a loop sets. -/
def targetOf? (tree : Tree) : Option Tree :=
  match tree.phraseKind? with
  | some .simpleAssignmentExpression | some .byRefAssignmentExpression
  | some .compoundAssignmentExpression => tree.children.head?
  | some .foreachKey | some .foreachValue => firstPhrase? tree
  | _ => none

/-- No phrase with errors stands for an element with a variable to set. -/
def SealsElements (trees : List Tree) : Prop :=
  ∀ list ∈ outerPartsAll trees, list.isPhrase .arrayInitialiserList = true →
    ∀ element ∈ list.children, element.isPhrase .error = true → assignedInElements [element] = []

namespace SealsElements

variable {kind : PhraseKind} {parts rest : List Tree}

theorem tail (hseals : SealsElements (tree :: rest)) : SealsElements rest := by
  intro list hlist
  exact hseals list (List.mem_append_right _ hlist)

theorem children (hseals : SealsElements (.phrase kind parts :: rest)) (hkind : kind ≠ .error) :
    SealsElements parts := by
  intro list hlist
  apply hseals list
  simp [outerPartsAll, outerParts, hkind, hlist]

theorem elements (hseals : SealsElements (.phrase .arrayInitialiserList parts :: rest)) :
    ∀ element ∈ parts, element.isPhrase .error = true → assignedInElements [element] = [] :=
  hseals _ (List.mem_append_left _ (self_mem_outerParts _)) rfl

end SealsElements

theorem assignedInValue_map_token (leaves : List Token) :
    assignedInValue (leaves.map Tree.token) = [] := by
  induction leaves with
  | nil => rfl
  | cons leaf rest ih => exact ih

mutual

/-- A sealed target sets the same variables, if no element of it is a phrase with errors that sets
some. -/
theorem assignedTokens_sealed : (tree : Tree) → SealsElements [tree] →
    assignedTokens tree.sealed = assignedTokens tree
  | .token _, _ => rfl
  | .phrase kind children, hseals => by
      cases kind
      case simpleVariable =>
        rw [@sealed_phrase .simpleVariable children nofun, assignedTokens, assignedTokens]
        simp [List.filterMap_map]
      case arrayCreationExpression =>
        rw [@sealed_phrase .arrayCreationExpression children nofun, assignedTokens, assignedTokens]
        exact assignedInArray_sealed children (hseals.children nofun)
      -- Other targets set nothing.
      all_goals rfl

theorem assignedInArray_sealed : (trees : List Tree) → SealsElements trees →
    assignedInArray (trees.map sealed) = assignedInArray trees
  | [], _ => rfl
  | .token _ :: rest, hseals => assignedInArray_sealed rest hseals.tail
  | .phrase kind elements :: rest, hseals => by
      by_cases hlist : kind = .arrayInitialiserList
      · subst hlist
        rw [List.map_cons, @sealed_phrase .arrayInitialiserList elements nofun, assignedInArray,
          assignedInArray]
        exact assignedInElements_sealed elements (hseals.children nofun) hseals.elements
      · have hother : ∀ parts, assignedInArray (.phrase kind parts :: rest.map sealed) =
            assignedInArray (.phrase kind elements :: rest) := by
          intro parts
          rw [assignedInArray, assignedInArray]
          · exact assignedInArray_sealed rest hseals.tail
          · exact fun _ hsame => hlist (Tree.phrase.inj hsame).1
          · exact fun _ hsame => hlist (Tree.phrase.inj hsame).1
        rw [List.map_cons, sealed]
        exact hother _

theorem assignedInElements_sealed : (trees : List Tree) → SealsElements trees →
    (∀ element ∈ trees, element.isPhrase .error = true → assignedInElements [element] = []) →
    assignedInElements (trees.map sealed) = assignedInElements trees
  | [], _, _ => rfl
  | .token _ :: rest, hseals, hsets =>
      assignedInElements_sealed rest hseals.tail (List.forall_mem_cons.1 hsets).2
  | .phrase kind parts :: rest, hseals, hsets => by
      obtain ⟨hfirst, hothers⟩ := List.forall_mem_cons.1 hsets
      have hrest := assignedInElements_sealed rest hseals.tail hothers
      by_cases herror : kind = .error
      · subst herror
        have hnothing : assignedInValue parts = [] := by
          simpa [assignedInElements] using hfirst rfl
        rw [List.map_cons, sealed, if_pos rfl, assignedInElements, assignedInElements, hrest,
          hnothing, assignedInValue_map_token]
      · rw [List.map_cons, sealed_phrase herror, assignedInElements, assignedInElements, hrest,
          assignedInValue_sealed parts (hseals.children herror)]

theorem assignedInValue_sealed : (trees : List Tree) → SealsElements trees →
    assignedInValue (trees.map sealed) = assignedInValue trees
  | [], _ => rfl
  | .token _ :: rest, hseals => assignedInValue_sealed rest hseals.tail
  | .phrase kind values :: rest, hseals => by
      by_cases hvalue : kind = .arrayValue
      · subst hvalue
        rw [List.map_cons, @sealed_phrase .arrayValue values nofun, assignedInValue,
          assignedInValue]
        exact assignedInLast_sealed values (hseals.children nofun)
      · have hother : ∀ parts, assignedInValue (.phrase kind parts :: rest.map sealed) =
            assignedInValue (.phrase kind values :: rest) := by
          intro parts
          rw [assignedInValue, assignedInValue]
          · exact assignedInValue_sealed rest hseals.tail
          · exact fun _ hsame => hvalue (Tree.phrase.inj hsame).1
          · exact fun _ hsame => hvalue (Tree.phrase.inj hsame).1
        rw [List.map_cons, sealed]
        exact hother _

theorem assignedInLast_sealed : (trees : List Tree) → SealsElements trees →
    assignedInLast (trees.map sealed) = assignedInLast trees
  | [], _ => rfl
  | [last], hseals => assignedTokens_sealed last hseals
  | _ :: second :: rest, hseals => assignedInLast_sealed (second :: rest) hseals.tail

end

/-- A sealed target declares the same variables. -/
theorem declareTargets_sealed {target? : Option Tree}
    (hseals : ∀ target ∈ target?, SealsElements [target]) :
    declareTargets doc (target?.map sealed) state = declareTargets doc target? state := by
  cases target? with
  | none => rfl
  | some target =>
      simp only [declareTargets, Option.map_some, assignedTokens_sealed target (hseals target rfl)]

/-! ## The walk over declarations -/

/-- The walk over declarations enters a sealed phrase as the phrase, if its target has no such
element. -/
theorem enterDeclaration_sealed (kind : PhraseKind) (children : List Tree)
    (hseals : ∀ target ∈ targetOf? (.phrase kind children), SealsElements [target]) :
    enterDeclaration doc kind (Tree.phrase kind children).sealed state =
      enterDeclaration doc kind (.phrase kind children) state := by
  by_cases herror : kind = .error
  · subst herror
    rfl
  have hintact : (Tree.phrase kind children).Intact :=
    fun hkind => herror (Option.some.inj hkind)
  cases kind
  case namespaceDefinition =>
    simp [enterDeclaration, enterNamespace, childNameText?_sealed doc hintact, locationOf]
  case namespaceUseDeclaration => simp [enterDeclaration, importsOf_sealed doc hintact]
  case constDeclaration => simp [enterDeclaration, constantsOf_sealed doc _ _ hintact]
  case propertyDeclaration => simp [enterDeclaration, propertiesOf_sealed doc _ _ hintact]
  case classConstDeclaration => simp [enterDeclaration, classConstantsOf_sealed doc _ _ hintact]
  case functionDeclaration =>
    simp [enterDeclaration, openFunction, functionOf_sealed doc _ hintact]
  case methodDeclaration => simp [enterDeclaration, openFunction, methodOf_sealed doc _ hintact]
  case anonymousFunctionCreationExpression =>
    simp [enterDeclaration, openFunction, closureOf_sealed doc _ hintact]
  case classDeclaration | interfaceDeclaration | traitDeclaration =>
    simp [enterDeclaration, openClassLike, classLikeOf_sealed doc _ _ hintact]
  case traitUseClause => simp [enterDeclaration, useTraits_sealed doc _ hintact]
  case functionCallExpression => simp [enterDeclaration, definedConstant?_sealed doc hintact]
  case simpleAssignmentExpression | byRefAssignmentExpression | compoundAssignmentExpression =>
    have hdeclared := declareTargets_sealed doc state hseals
    simp only [enterDeclaration, children_sealed hintact, List.head?_map]
    exact hdeclared
  case foreachKey | foreachValue =>
    have hdeclared := declareTargets_sealed doc state hseals
    simp only [enterDeclaration, firstPhrase?_sealed hintact]
    exact hdeclared
  case catchClause => simp [enterDeclaration, declareCaught_sealed doc _ hintact]
  -- Nothing is read from the others.
  all_goals rfl

/-- The walk over declarations leaves a sealed phrase as the phrase. -/
theorem leaveDeclaration_sealed (kind : PhraseKind) (children : List Tree) :
    leaveDeclaration kind (Tree.phrase kind children).sealed state =
      leaveDeclaration kind (.phrase kind children) state := by
  cases kind
  case namespaceDefinition =>
    have hintact : (Tree.phrase .namespaceDefinition children).Intact := nofun
    simp [leaveDeclaration, childPhrase?_sealed hintact]
  all_goals rfl

/-! ## The walk over uses -/

section

variable (table : SymbolTable) (source : SymbolSource) (around : UseState)

theorem simpleVariable_sealed (hintact : tree.Intact) :
    simpleVariable doc tree.sealed around = simpleVariable doc tree around := by
  simp [simpleVariable, childToken?_sealed hintact]

theorem nameUse_sealed (tree : Tree) :
    nameUse doc source tree.sealed around = nameUse doc source tree around := by
  simp [nameUse]

theorem scopedMemberText_sealed (hintact : tree.Intact) :
    scopedMemberText doc tree.sealed = scopedMemberText doc tree := by
  rw [scopedMemberText, scopedMemberText, childPhrase?_sealed hintact,
    childNameText?_sealed doc hintact, nameText_sealed]
  cases tree.childPhrase? .simpleVariable with
  | none => rfl
  | some inner => exact nameText_sealed doc inner

theorem memberPart_sealed (kind : PhraseKind) (tree : Tree) (text : String) :
    memberPart doc kind tree.sealed text = memberPart doc kind tree text := by
  simp [memberPart]

theorem identifierUse_sealed (tree : Tree) :
    identifierUse doc tree.sealed around = identifierUse doc tree around := by
  simp [identifierUse, memberPart_sealed]

theorem namespaceUse_sealed (hintact : tree.Intact) :
    namespaceUse doc tree.sealed around = namespaceUse doc tree around := by
  simp only [namespaceUse, childPhrase?_sealed hintact, Option.isSome_map,
    Document.treeRange_sealed]
  cases tree.childPhrase? .namespaceName with
  | none => rfl
  | some name => simp

theorem enterClass_sealed (tree : Tree) :
    enterClass doc table tree.sealed around = enterClass doc table tree around := by
  simp [enterClass, classFrom]

theorem enterFunction_sealed (tree : Tree) :
    enterFunction doc table tree.sealed around = enterFunction doc table tree around := by
  simp [enterFunction, functionFrom]

/-- The walk over uses enters a sealed phrase as the phrase. -/
theorem enterUse_sealed (kind : PhraseKind) (children : List Tree) :
    enterUse doc table source kind (Tree.phrase kind children).sealed around =
      enterUse doc table source kind (.phrase kind children) around := by
  have hplain : enterPlain doc table source kind (Tree.phrase kind children).sealed around =
      enterPlain doc table source kind (.phrase kind children) around := by
    by_cases herror : kind = .error
    · subst herror
      rfl
    have hintact : (Tree.phrase kind children).Intact :=
      fun hkind => herror (Option.some.inj hkind)
    cases kind
    case qualifiedName | fullyQualifiedName | relativeQualifiedName =>
      exact nameUse_sealed doc source around _
    case simpleVariable => exact simpleVariable_sealed doc around hintact
    case identifier => exact identifierUse_sealed doc around _
    case scopedMemberName =>
      simp only [enterPlain, memberPart_sealed, scopedMemberText_sealed doc hintact]
    case memberName => simp only [enterPlain, memberPart_sealed, nameText_sealed]
    case namespaceUseDeclaration => simp only [enterPlain, importsOf_sealed doc hintact]
    case namespaceDefinition => exact namespaceUse_sealed doc around hintact
    case classDeclaration | interfaceDeclaration | traitDeclaration =>
      exact enterClass_sealed doc table around _
    case functionDeclaration | methodDeclaration | anonymousFunctionCreationExpression =>
      exact enterFunction_sealed doc table around _
    -- Nothing is read from the others.
    all_goals rfl
  simp only [enterUse, hplain]

theorem leaveUse_sealed (hintact : tree.Intact) :
    leaveUse doc source tree.sealed around = leaveUse doc source tree around := by
  have hvalue : ∀ frame state,
      valueOf doc source tree.sealed frame state = valueOf doc source tree frame state := by
    intro frame state
    simp [valueOf, relativeScope, childPhrase?_sealed hintact]
  simp only [leaveUse, hvalue]

end

end Reading

/-! ## Runs through sealed trees -/

namespace Walk

open SymbolIndex.Tree

variable {σ : Type} {walk : Walk σ}

/-- The walk does the same at a phrase and at its sealed form. -/
def SameSealed (walk : Walk σ) (part : Tree) : Prop :=
  ∀ kind, part.phraseKind? = some kind → ∀ state,
    walk.enter kind part.sealed state = walk.enter kind part state ∧
      (walk.descends kind = true →
        walk.leave kind part.sealed state = walk.leave kind part state)

mutual

/-- A walk that passes over errors runs through a sealed tree as through the tree, if it does the
same at each phrase outside of them. -/
theorem run_sealed (herror : walk.descends .error = false) : (tree : Tree) → (state : σ) →
    (∀ part ∈ tree.outerParts, walk.SameSealed part) →
      walk.run tree.sealed state = walk.run tree state
  | .token _, _, _ => rfl
  | .phrase kind children, state, hsame => by
      have hself := hsame _ (self_mem_outerParts _) kind rfl
      by_cases hkind : kind = .error
      · subst hkind
        have henter := (hself state).1
        rw [sealed] at henter ⊢
        rw [Walk.run, Walk.run, herror]
        exact henter
      · have hall := runAll_sealed herror children
        have hinside : ∀ part ∈ outerPartsAll children, walk.SameSealed part := by
          intro part hpart
          apply hsame part
          simp [outerParts, hkind, hpart]
        rw [sealed_phrase hkind] at hself ⊢
        rw [Walk.run, Walk.run, (hself state).1]
        split
        · rename_i hdescends
          rw [hall _ hinside, (hself _).2 hdescends]
        · rfl

theorem runAll_sealed (herror : walk.descends .error = false) : (trees : List Tree) →
    (state : σ) → (∀ part ∈ outerPartsAll trees, walk.SameSealed part) →
    walk.runAll (trees.map sealed) state = walk.runAll trees state
  | [], _, _ => rfl
  | tree :: rest, state, hsame => by
      obtain ⟨hfirst, hrest⟩ := List.forall_mem_append.1 hsame
      rw [List.map_cons, Walk.runAll, Walk.runAll, run_sealed herror tree state hfirst,
        runAll_sealed herror rest _ hrest]

end

end Walk

namespace Reading

open SymbolIndex.Tree

/-- No phrase with errors stands for an element with a variable to set, in the target of an
assignment or a loop that is outside of such phrases. -/
def SealsTargets (tree : Tree) : Prop :=
  ∀ part ∈ tree.outerParts, ∀ target ∈ targetOf? part, SealsElements [target]

instance (trees : List Tree) : Decidable (SealsElements trees) :=
  inferInstanceAs (Decidable (∀ list ∈ outerPartsAll trees, list.isPhrase .arrayInitialiserList =
    true → ∀ element ∈ list.children, element.isPhrase .error = true →
      assignedInElements [element] = []))

instance (tree : Tree) : Decidable (SealsTargets tree) :=
  inferInstanceAs (Decidable (∀ part ∈ tree.outerParts, ∀ target ∈ targetOf? part,
    SealsElements [target]))

/-- The declarations that are read do not depend on what is in phrases with errors. -/
theorem run_declarationWalk_sealed (doc : Document) (tree : Tree) (hseals : SealsTargets tree)
    (state : DeclarationState) :
    (declarationWalk doc).run tree.sealed state = (declarationWalk doc).run tree state := by
  apply Walk.run_sealed rfl
  intro part hpart kind hkind before
  cases part with
  | token _ => cases hkind
  | phrase other children =>
      obtain rfl := Option.some.inj hkind
      constructor
      · exact enterDeclaration_sealed doc before other children (hseals _ hpart)
      · intro _
        exact leaveDeclaration_sealed before other children

/-- The uses that are read do not depend on what is in phrases with errors. -/
theorem run_useWalk_sealed (doc : Document) (table : SymbolTable) (source : SymbolSource)
    (tree : Tree) (state : UseState) :
    (useWalk doc table source).run tree.sealed state =
      (useWalk doc table source).run tree state := by
  apply Walk.run_sealed rfl
  intro part _ kind hkind before
  cases part with
  | token _ => cases hkind
  | phrase other children =>
      obtain rfl := Option.some.inj hkind
      constructor
      · exact enterUse_sealed doc table source before other children
      · intro hdescends
        apply leaveUse_sealed
        intro herror
        rw [Option.some.inj herror] at hdescends
        cases hdescends

/-- A document with the sealed tree in the place of its tree. -/
def sealedDocument (doc : Document) : Document :=
  { doc with tree := doc.tree.sealed }

mutual

theorem literalType_sealedDocument (doc : Document) : (tree : Tree) →
    literalType (sealedDocument doc) tree = literalType doc tree
  | .token _ => rfl
  | .phrase kind children => by
      have hname : nameText (sealedDocument doc) (.phrase kind children) =
          nameText doc (.phrase kind children) := rfl
      rw [literalType.eq_def, literalType.eq_def]
      simp only [hname, lastLiteralType_sealedDocument doc children]

theorem lastLiteralType_sealedDocument (doc : Document) : (trees : List Tree) →
    lastLiteralType (sealedDocument doc) trees = lastLiteralType doc trees
  | [] => rfl
  | tree :: rest => by
      rw [lastLiteralType, lastLiteralType, literalType_sealedDocument doc tree,
        lastLiteralType_sealedDocument doc rest]

end

theorem initialise_sealedDocument (doc : Document) :
    initialise (sealedDocument doc) = initialise doc := by
  funext resolver tree comment symbol
  have hvalue : initialiser? tree = none ∨ ∃ value, initialiser? tree = some value ∧
      literalType (sealedDocument doc) value = literalType doc value := by
    cases initialiser? tree with
    | none => exact Or.inl rfl
    | some value => exact Or.inr ⟨value, rfl, literalType_sealedDocument doc value⟩
  rcases hvalue with hnone | ⟨value, hsome, hliteral⟩
  · simp only [initialise, hnone]
  · simp only [initialise, hsome, hliteral]
    rfl

theorem definedConstant?_sealedDocument (doc : Document) (tree : Tree) :
    definedConstant? (sealedDocument doc) tree = definedConstant? doc tree := by
  have hliteral : literalType (sealedDocument doc) = literalType doc :=
    funext (literalType_sealedDocument doc)
  rw [definedConstant?, definedConstant?, hliteral]
  rfl

/-- The walk uses the name and the text of the document, not its tree. -/
theorem enterDeclaration_sealedDocument (doc : Document) :
    enterDeclaration (sealedDocument doc) = enterDeclaration doc := by
  funext kind tree state
  have hconstants : constantsOf (sealedDocument doc) = constantsOf doc := by
    funext state comment tree
    rw [constantsOf, constantsOf, initialise_sealedDocument]
    rfl
  have hproperties : propertiesOf (sealedDocument doc) = propertiesOf doc := by
    funext state comment tree
    have hproperty : propertyOf? (sealedDocument doc) = propertyOf? doc := by
      funext state comment modifiers declared element
      rw [propertyOf?, propertyOf?, initialise_sealedDocument]
      rfl
    rw [propertiesOf, propertiesOf, hproperty]
    rfl
  have hclassConstants : classConstantsOf (sealedDocument doc) = classConstantsOf doc := by
    funext state comment tree
    have hconstant : classConstantOf (sealedDocument doc) = classConstantOf doc := by
      funext state comment modifiers element
      rw [classConstantOf, classConstantOf, initialise_sealedDocument]
      rfl
    rw [classConstantsOf, classConstantsOf, hconstant]
  cases kind
  case constDeclaration => simp only [enterDeclaration, hconstants]
  case propertyDeclaration => simp only [enterDeclaration, hproperties]
  case classConstDeclaration => simp only [enterDeclaration, hclassConstants]
  case functionCallExpression =>
    simp only [enterDeclaration, definedConstant?_sealedDocument]
  all_goals rfl

/-- The table of a document is that of the sealed one. -/
theorem ofDocument_sealedDocument {doc : Document} (hseals : SealsTargets doc.tree) :
    SymbolTable.ofDocument (sealedDocument doc) = SymbolTable.ofDocument doc := by
  have hrun : (declarationWalk (sealedDocument doc)).run doc.tree.sealed
      (DeclarationState.start (sealedDocument doc)) =
      (declarationWalk doc).run doc.tree (DeclarationState.start doc) := by
    rw [declarationWalk, enterDeclaration_sealedDocument]
    exact run_declarationWalk_sealed doc doc.tree hseals _
  simp only [SymbolTable.ofDocument, sealedDocument] at hrun ⊢
  rw [hrun]

/-- The references of a document are those of the sealed one. -/
theorem references_sealedDocument (doc : Document) (table : SymbolTable) (source : SymbolSource) :
    ReferenceTable.ofDocument (sealedDocument doc) table source =
      ReferenceTable.ofDocument doc table source := by
  have hrun : (useWalk (sealedDocument doc) table source).run doc.tree.sealed
      (UseState.start (sealedDocument doc)) =
      (useWalk doc table source).run doc.tree (UseState.start doc) :=
    run_useWalk_sealed doc table source doc.tree _
  simp only [ReferenceTable.ofDocument, sealedDocument] at hrun ⊢
  rw [hrun]

/-- Documents that are alike but for errors are sealed to the same. -/
theorem sealedDocument_eq_of_alike {doc other : Document} (huri : doc.uri = other.uri)
    (htext : doc.text = other.text) (halike : Alike doc.tree other.tree) :
    sealedDocument doc = sealedDocument other := by
  simp [sealedDocument, huri, htext, sealed_eq_of_alike halike]

end Reading

open Reading in
/-- What is in a phrase with errors does not matter, save for its first and last token: documents
that differ in nothing else have the same references, given the same symbols, and the same symbols
unless such a phrase stands for an element with a variable to set. -/
theorem SymbolTable.ofDocument_eq_of_alike {doc other : Document} (huri : doc.uri = other.uri)
    (htext : doc.text = other.text) (halike : Tree.Alike doc.tree other.tree) :
    (∀ table source, ReferenceTable.ofDocument doc table source =
      ReferenceTable.ofDocument other table source) ∧
      (SealsTargets doc.tree → SealsTargets other.tree → ofDocument doc = ofDocument other) := by
  have hsealed := sealedDocument_eq_of_alike huri htext halike
  constructor
  · intro table source
    rw [← references_sealedDocument doc, hsealed, references_sealedDocument other]
  · intro hdoc hother
    rw [← ofDocument_sealedDocument hdoc, hsealed, ofDocument_sealedDocument hother]

/-- An assignment to an array of one element, and a broken statement behind it. -/
def brokenDocument (element broken : List Tree) : Document :=
  ⟨"a", "[$a] = f(); $b $c", .phrase .sourceFile
    [.phrase .simpleAssignmentExpression
      [.phrase .arrayCreationExpression
        [.token ⟨.openBracket, 0, 1⟩, .phrase .arrayInitialiserList element,
          .token ⟨.closeBracket, 3, 1⟩],
        .token ⟨.equals, 5, 1⟩,
        .phrase .functionCallExpression
          [.phrase .qualifiedName [.phrase .namespaceName [.token ⟨.plainName, 7, 1⟩]],
            .token ⟨.openParenthesis, 8, 1⟩, .token ⟨.closeParenthesis, 9, 1⟩]],
      .token ⟨.semicolon, 10, 1⟩, .phrase .error broken]⟩

/-- The value of an element that sets the variable `$a`. -/
def firstValue : List Tree :=
  [.phrase .arrayValue [.phrase .simpleVariable [.token ⟨.variableName, 1, 2⟩]]]

/-- What is broken, as tokens and as variables. -/
def brokenTokens : List Tree :=
  [.token ⟨.variableName, 12, 2⟩, .token ⟨.variableName, 15, 2⟩]

def brokenVariables : List Tree :=
  [.phrase .simpleVariable [.token ⟨.variableName, 12, 2⟩],
    .phrase .simpleVariable [.token ⟨.variableName, 15, 2⟩]]

theorem Tree.alike_brokenDocument {element other broken pieces : List Tree}
    (helement : AlikeAll element other) (hbroken : Alike (.phrase .error broken)
      (.phrase .error pieces)) :
    Alike (brokenDocument element broken).tree (brokenDocument other pieces).tree := by
  have harray : AlikeAll
      [.token ⟨.openBracket, 0, 1⟩, .phrase .arrayInitialiserList element,
        .token ⟨.closeBracket, 3, 1⟩]
      [.token ⟨.openBracket, 0, 1⟩, .phrase .arrayInitialiserList other,
        .token ⟨.closeBracket, 3, 1⟩] :=
    .cons (.token _) (.cons (.phrase nofun helement) (AlikeAll.refl _))
  exact .phrase nofun (.cons (.phrase nofun (.cons (.phrase nofun harray) (AlikeAll.refl _)))
    (.cons (.token _) (.cons hbroken .nil)))

open Reading in
/-- The broken statements of two documents differ, and nothing that is read from them does. -/
theorem SymbolTable.ofDocument_eq_of_alike_broken :
    ∃ doc other : Document, doc.uri = other.uri ∧ doc.text = other.text ∧
      Tree.Alike doc.tree other.tree ∧ SealsTargets doc.tree ∧ SealsTargets other.tree ∧
      (ofDocument doc).symbols.map (·.name) = ["$a"] ∧ ofDocument doc = ofDocument other ∧
      ∀ table source, ReferenceTable.ofDocument doc table source =
        ReferenceTable.ofDocument other table source := by
  have halike := @Tree.alike_brokenDocument [.phrase .arrayElement firstValue]
    [.phrase .arrayElement firstValue] brokenTokens brokenVariables
    (Tree.AlikeAll.refl _) (.error (by decide) (by decide))
  have hseals : ∀ broken ∈ [brokenTokens, brokenVariables],
      SealsTargets (brokenDocument [.phrase .arrayElement firstValue] broken).tree := by
    decide +kernel
  have hdoc := hseals _ List.mem_cons_self
  have hother := hseals _ (List.mem_cons_of_mem _ List.mem_cons_self)
  have hsame := @ofDocument_eq_of_alike
    (brokenDocument [.phrase .arrayElement firstValue] brokenTokens)
    (brokenDocument [.phrase .arrayElement firstValue] brokenVariables) rfl rfl halike
  exact ⟨brokenDocument [.phrase .arrayElement firstValue] brokenTokens,
    brokenDocument [.phrase .arrayElement firstValue] brokenVariables, rfl, rfl, halike, hdoc,
    hother, by decide +kernel, hsame.2 hdoc hother, hsame.1⟩

/-- A phrase with errors in the place of an element is looked into. -/
theorem SymbolTable.ofDocument_ne_of_alike :
    ∃ doc other : Document, doc.uri = other.uri ∧ doc.text = other.text ∧
      Tree.Alike doc.tree other.tree ∧ (ofDocument doc).symbols.map (·.name) = ["$a"] ∧
      (ofDocument other).symbols.map (·.name) = [] ∧ ofDocument doc ≠ ofDocument other := by
  have halike := @Tree.alike_brokenDocument [.phrase .error firstValue]
    [.phrase .error [.token ⟨.variableName, 1, 2⟩]] [] []
    (.cons (.error (by decide) (by decide)) .nil) (.error rfl rfl)
  have hdoc : (ofDocument (brokenDocument [.phrase .error firstValue] [])).symbols.map (·.name) =
      ["$a"] := by
    decide +kernel
  have hother : (ofDocument (brokenDocument
      [.phrase .error [.token ⟨.variableName, 1, 2⟩]] [])).symbols.map (·.name) = [] := by
    decide +kernel
  refine ⟨brokenDocument [.phrase .error firstValue] [],
    brokenDocument [.phrase .error [.token ⟨.variableName, 1, 2⟩]] [], rfl, rfl, halike, hdoc,
    hother, ?_⟩
  intro hsame
  rw [hsame, hother] at hdoc
  cases hdoc

end SymbolIndex
