import SymbolIndex.DocComment
import SymbolIndex.Reading.Names
import SymbolIndex.Reading.Walk

/-!
# Reading declarations

One walk over the tree of a document gives its symbol table. Entering a declaration opens a symbol,
leaving it adds the symbol to the one around it. A doc comment waits for the next declaration and is
dropped at the end of a statement.
-/

namespace SymbolIndex.Reading

open SymbolIndex.Text

/-- The state of the walk: the open symbols stand innermost first above the root, and `pending` is
the doc comment that waits for its declaration. -/
structure DeclarationState where
  resolver : NameResolver
  root : Symbol
  opened : List Symbol
  pending : Option (DocComment × Range)
  deriving Inhabited

/-- The name of every closure. -/
def closureName : String := "\x7bclosure\x7d"

/-- Declared types that a type in a comment may make more precise. -/
def looseTypes : List String :=
  ["array", "iterable", "mixed", "object", "callable", "null"]

def isLoose (type : String) : Bool :=
  (TypeExpr.atoms type).all fun member => looseTypes.contains (asciiLowered member)

/-- The declared type, unless it is loose and the comment gives one. -/
def chooseType (declared commented : String) : String :=
  if commented = "" then declared
  else if declared = "" then commented
  else if isLoose declared then commented
  else declared

namespace DeclarationState

def start (doc : Document) : DeclarationState :=
  ⟨{}, { kind := .file, name := doc.uri, location := some (doc.location doc.fullRange) }, [], none⟩

/-- The short name of the class-like declaration around. -/
def declaringType? (state : DeclarationState) : Option String :=
  state.resolver.className?.map shortName

/-- A variable that its surroundings have already. -/
def isKnownVariable (owner symbol : Symbol) : Bool :=
  symbol.kind == .localVariable &&
    owner.children.any fun child => child.kind.isVariable && child.name == symbol.name

def withChild (owner symbol : Symbol) : Symbol :=
  if isKnownVariable owner symbol then owner
  else { owner with children := owner.children ++ [symbol] }

/-- Adds a symbol to the innermost open one. -/
def addChild (state : DeclarationState) (symbol : Symbol) : DeclarationState :=
  match state.opened with
  | [] => { state with root := withChild state.root symbol }
  | top :: rest => { state with opened := withChild top symbol :: rest }

def addChildren (state : DeclarationState) (symbols : List Symbol) : DeclarationState :=
  symbols.foldl addChild state

def openSymbol (state : DeclarationState) (symbol : Symbol) : DeclarationState :=
  { state with opened := symbol :: state.opened }

/-- Adds the innermost open symbol to the one around it. -/
def closeSymbol (state : DeclarationState) : DeclarationState :=
  match state.opened with
  | [] => state
  | top :: rest => { state with opened := rest }.addChild top

/-- Closes all symbols that are still open. -/
def closeSymbols (state : DeclarationState) : DeclarationState :=
  state.opened.foldl (fun state _ => state.closeSymbol) state

end DeclarationState

variable (doc : Document)

def locationOf (tree : Tree) : Option Location :=
  some (doc.location (doc.treeRange tree))

def tokenLocation (token : Token) : Option Location :=
  some (doc.location (doc.tokenRange token))

/-- A doc comment waits; the end of a statement, or a brace, ends the wait. -/
def declarationToken (token : Token) (state : DeclarationState) : DeclarationState :=
  match token.kind with
  | .documentComment =>
    { state with
      pending := some (DocComment.parse (doc.tokenText token), doc.tokenRange token) }
  | .openBrace | .closeBrace | .semicolon => { state with pending := none }
  | _ => state

/-- A namespace is marked at the root, wherever it is declared. -/
def enterNamespace (tree : Tree) (state : DeclarationState) : DeclarationState :=
  let name := (childNameText? doc tree .namespaceName).getD ""
  let mark : Symbol := { kind := .namespaceMark, name := name, location := locationOf doc tree }
  { state with
    resolver := state.resolver.enterNamespace name
    root := { state.root with children := state.root.children ++ [mark] } }

def declareImport (state : DeclarationState) (symbol : Symbol) : DeclarationState :=
  { state with resolver := state.resolver.addImport symbol }.addChild symbol

/-! ### Values, constants and properties -/

/-- The expression after the equals sign of a declaration. -/
def initialiser? (tree : Tree) : Option Tree :=
  if (tree.childToken? .equals).isSome then tree.children.getLast? else none

/-- The value and the type of a symbol, from its initialiser and its comment. A tag for the symbol
comes before the text of the comment. -/
def initialise (resolver : NameResolver) (tree : Tree) (comment : Option DocComment)
    (symbol : Symbol) : Symbol :=
  let symbol :=
    match initialiser? tree with
    | some value =>
      { symbol with value := some (doc.treeText value), type := literalType doc value }
    | none => symbol
  match comment.bind (·.typeOf? symbol.name) with
  | some tag =>
    let type := resolveDocType resolver tag.type
    { symbol with
      type := chooseType symbol.type type
      doc := some ⟨tag.description, type⟩ }
  | none =>
    match comment with
    | some comment =>
      if comment.text = "" then symbol else { symbol with doc := some ⟨comment.text, ""⟩ }
    | none => symbol

def constantsOf (state : DeclarationState) (comment : Option DocComment) (tree : Tree) :
    List Symbol :=
  match tree.childPhrase? .constElementList with
  | none => []
  | some list =>
    (list.children.filter (·.isPhrase .constElement)).filterMap fun element =>
      (childTokenText? doc element .plainName).map fun name =>
        initialise doc state.resolver element comment
          { kind := .constant
            name := state.resolver.relative name
            location := locationOf doc element }

def propertyOf? (state : DeclarationState) (comment : Option DocComment) (modifiers : Modifiers)
    (declared : String) (element : Tree) : Option Symbol :=
  (childTokenText? doc element .variableName).map fun name =>
    let symbol := initialise doc state.resolver
      ((element.childPhrase? .propertyInitialiser).getD element) comment
      { kind := .property
        name := name
        location := locationOf doc element
        scope := state.declaringType?
        modifiers := modifiers }
    { symbol with type := chooseType declared symbol.type }

def propertiesOf (state : DeclarationState) (comment : Option DocComment) (tree : Tree) :
    List Symbol :=
  match tree.childPhrase? .propertyElementList with
  | none => []
  | some list =>
    (list.children.filter (·.isPhrase .propertyElement)).filterMap
      (propertyOf? doc state comment (memberModifiers (some tree))
        (childDeclaredType doc state.resolver tree))

def classConstantOf (state : DeclarationState) (comment : Option DocComment)
    (modifiers : Modifiers) (element : Tree) : Symbol :=
  initialise doc state.resolver element comment
    { kind := .classConstant
      name := (childNameText? doc element .identifier).getD ""
      location := locationOf doc element
      scope := state.declaringType?
      modifiers := modifiers }

def classConstantsOf (state : DeclarationState) (comment : Option DocComment) (tree : Tree) :
    List Symbol :=
  match tree.childPhrase? .classConstElementList with
  | none => []
  | some list =>
    (list.children.filter (·.isPhrase .classConstElement)).map
      (classConstantOf doc state comment (memberModifiers (some tree) ∪ .isStatic))

/-! ### Functions and methods -/

def parameterOf (resolver : NameResolver) (comment : Option DocComment) (tree : Tree) : Symbol :=
  let name := (childTokenText? doc tree .variableName).getD ""
  let isVariadic := (tree.childToken? .ellipsis).isSome
  let modifiers : Modifiers :=
    (if (tree.childToken? .ampersand).isSome then .byReference else .empty) ∪
      (if isVariadic then .variadic else .empty)
  let tag? := comment.bind (·.parameter? name)
  let commented := ((tag?.map fun tag => resolveDocType resolver tag.type)).getD ""
  let type := chooseType (childDeclaredType doc resolver tree) commented
  { kind := .parameter
    name := name
    location := locationOf doc tree
    modifiers := modifiers
    value := (initialiser? tree).map doc.treeText
    type := if isVariadic && type != "" then TypeExpr.arrayOf type else type
    doc := tag?.map fun tag => ⟨tag.description, commented⟩ }

def parametersOf (resolver : NameResolver) (comment : Option DocComment) (header : Tree) :
    List Symbol :=
  match header.childPhrase? .parameterDeclarationList with
  | none => []
  | some list =>
    (list.children.filter (·.isPhrase .parameterDeclaration)).map
      (parameterOf doc resolver comment)

def returnTypeOf (resolver : NameResolver) (header : Tree) : String :=
  match header.childPhrase? .returnType with
  | some type => childDeclaredType doc resolver type
  | none => ""

/-- The parameters, the type and the documentation of a function, from its header and its
comment. -/
def withSignature (resolver : NameResolver) (header? : Option Tree) (comment : Option DocComment)
    (symbol : Symbol) : Symbol :=
  match header? with
  | none => symbol
  | some header =>
    let commented :=
      ((comment.bind (·.returned?)).map fun tag => resolveDocType resolver tag.type).getD ""
    { symbol with
      children := symbol.children ++ parametersOf doc resolver comment header
      type := chooseType (returnTypeOf doc resolver header) commented
      doc := comment.map fun comment => ⟨comment.text, commented⟩ }

def functionOf (state : DeclarationState) (tree : Tree) : Symbol :=
  let header? := tree.childPhrase? .functionDeclarationHeader
  let name := (header?.bind fun header => childTokenText? doc header .plainName).getD ""
  withSignature doc state.resolver header? (state.pending.map (·.1))
    { kind := .function
      name := state.resolver.relative name
      location := locationOf doc tree }

def methodOf (state : DeclarationState) (tree : Tree) : Symbol :=
  let header? := tree.childPhrase? .methodDeclarationHeader
  let name := (header?.bind fun header => childNameText? doc header .identifier).getD ""
  withSignature doc state.resolver header? (state.pending.map (·.1))
    { kind := methodKind name
      name := name
      location := locationOf doc tree
      scope := state.declaringType?
      modifiers := memberModifiers header? }

/-- A variable that a closure takes from around it. -/
def capturedOf? (tree : Tree) : Option Symbol :=
  (tree.childToken? .variableName).map fun token =>
    { kind := .localVariable
      name := doc.tokenText token
      location := tokenLocation doc token
      modifiers := .isUse ∪
        (if (tree.childToken? .ampersand).isSome then .byReference else .empty) }

def capturedBy (header? : Option Tree) : List Symbol :=
  match (header?.bind (·.childPhrase? .anonymousFunctionUseClause)).bind
      (·.childPhrase? .closureUseList) with
  | none => []
  | some list =>
    (list.children.filter (·.isPhrase .anonymousFunctionUseVariable)).filterMap (capturedOf? doc)

def closureOf (state : DeclarationState) (tree : Tree) : Symbol :=
  let header? := tree.childPhrase? .anonymousFunctionHeader
  let isStatic := (header?.bind (·.childToken? .staticKeyword)).isSome
  let symbol := withSignature doc state.resolver header? (state.pending.map (·.1))
    { kind := .function
      name := closureName
      location := locationOf doc tree
      modifiers := .anonymous ∪ (if isStatic then .isStatic else .empty) }
  { symbol with children := symbol.children ++ capturedBy doc header? }

/-- Opens a function-like symbol, which takes the waiting comment. -/
def openFunction (symbolOf : DeclarationState → Tree → Symbol) (tree : Tree)
    (state : DeclarationState) : DeclarationState :=
  { state.openSymbol (symbolOf state tree) with pending := none }

/-! ### Classes, interfaces and traits -/

def classKind : PhraseKind → SymbolKind
  | .interfaceDeclaration => .interfaceType
  | .traitDeclaration => .traitType
  | _ => .classType

def classHeaderKind : PhraseKind → PhraseKind
  | .interfaceDeclaration => .interfaceDeclarationHeader
  | .traitDeclaration => .traitDeclarationHeader
  | _ => .classDeclarationHeader

def associatedNames (resolver : NameResolver) (kind : SymbolKind) (tree? : Option Tree) :
    List SymbolId :=
  match tree? with
  | some tree => (resolvedNames doc resolver tree).map (⟨kind, ·⟩)
  | none => []

/-- The list of interfaces that a class implements or an interface extends. -/
def interfaceList? (header : Tree) : Option Tree :=
  ((header.childPhrase? .classInterfaceClause).or
    (header.childPhrase? .interfaceBaseClause)).bind (·.childPhrase? .qualifiedNameList)

/-- A class-like symbol as its header declares it. -/
def classLikeOf (resolver : NameResolver) (kind : PhraseKind) (tree : Tree) : Symbol :=
  let header? := tree.childPhrase? (classHeaderKind kind)
  let name := (header?.bind fun header => childTokenText? doc header .plainName).getD ""
  let modifiers? := (header?.bind (·.childPhrase? .classModifiers)).map modifiersOf
  { kind := classKind kind
    name := resolver.relative name
    location := locationOf doc tree
    modifiers := modifiers?.getD .empty
    associated :=
      associatedNames doc resolver .classType (header?.bind (·.childPhrase? .classBaseClause)) ++
        associatedNames doc resolver .interfaceType (header?.bind interfaceList?) }

/-- A member that only the comment of its class declares. -/
def magicMember (state : DeclarationState) (range : Range) (tag : DocTag) (kind : SymbolKind)
    (modifiers : Modifiers) (children : List Symbol) : Symbol :=
  let type := resolveDocType state.resolver tag.type
  { kind := kind
    name := tag.name
    location := some (doc.location range)
    scope := state.declaringType?
    modifiers := .magic ∪ .isPublic ∪ modifiers
    type := type
    doc := some ⟨tag.description, type⟩
    children := children }

def magicProperty (state : DeclarationState) (range : Range) (tag : DocTag) : Symbol :=
  let modifiers : Modifiers :=
    match tag.kind with
    | .propertyRead => .readOnly
    | .propertyWrite => .writeOnly
    | _ => .empty
  magicMember doc state range tag .property modifiers []

def magicParameter (state : DeclarationState) (range : Range) (parameter : TagParameter) :
    Symbol :=
  { kind := .parameter
    name := parameter.name
    location := some (doc.location range)
    type := resolveDocType state.resolver parameter.type
    value := parameter.default }

def magicMethod (state : DeclarationState) (range : Range) (tag : DocTag) : Symbol :=
  magicMember doc state range tag .method (if tag.isStatic then .isStatic else .empty)
    (tag.parameters.map (magicParameter doc state range))

/-- Adds what the comment of a class-like symbol says. -/
def withComment (state : DeclarationState) (symbol : Symbol) : Symbol :=
  match state.pending with
  | none => symbol
  | some (comment, range) =>
    { symbol with
      children := symbol.children ++ comment.propertyTags.map (magicProperty doc state range) ++
        comment.methodTags.map (magicMethod doc state range)
      doc := if comment.text = "" then symbol.doc else some ⟨comment.text, ""⟩ }

def openClassLike (kind : PhraseKind) (tree : Tree) (state : DeclarationState) :
    DeclarationState :=
  let symbol := classLikeOf doc state.resolver kind tree
  let inside := { state with resolver := state.resolver.enterClass symbol }
  { inside.openSymbol (withComment doc inside symbol) with pending := none }

/-- Adds the used traits to the class-like symbol around. -/
def useTraits (tree : Tree) (state : DeclarationState) : DeclarationState :=
  let traits := associatedNames doc state.resolver .traitType (tree.childPhrase? .qualifiedNameList)
  match state.opened with
  | top :: rest =>
    if top.kind.isClassLike then
      { state with opened := { top with associated := top.associated ++ traits } :: rest }
    else state
  | [] => state

/-! ### Defined constants and variables -/

def isQuote (c : Char) : Bool :=
  c == '\'' || c == '"'

/-- A text without the quotes around it. -/
def unquoted (text : String) : String :=
  String.ofList
    (((text.toList.dropWhile isQuote).reverse.dropWhile isQuote).reverse)

/-- The call is one of `define`. -/
def callsDefine (tree : Tree) : Bool :=
  match tree.children with
  | callee :: _ =>
    isName callee &&
      eqIgnoringCase
        (String.ofList ((nameText doc callee).toList.dropWhile (· == '\\'))) "define"
  | [] => false

/-- The arguments of a call. -/
def argumentsOf (tree : Tree) : List Tree :=
  match tree.childPhrase? .argumentExpressionList with
  | some list => list.children.filter fun argument => !argument.isToken .comma
  | none => []

/-- The constant that a call of `define` with a literal name declares. -/
def definedConstant? (tree : Tree) : Option Symbol :=
  if !callsDefine doc tree then none
  else
    match argumentsOf tree with
    | .token first :: rest =>
      let name := unquoted (doc.tokenText first)
      if first.kind ≠ .stringLiteral ∨ name = "" then none
      else
        some
          { kind := .constant
            name := name
            location := locationOf doc tree
            value := rest.head?.map doc.treeText
            type := (rest.head?.map (literalType doc)).getD "" }
    | _ => none

mutual

/-- The variables that a target of an assignment sets: itself, or the values of an array. -/
def assignedTokens : Tree → List Token
  | .token _ => []
  | .phrase .simpleVariable children =>
    ((children.filterMap Tree.token?).find? (·.kind == .variableName)).toList
  | .phrase .arrayCreationExpression children => assignedInArray children
  | .phrase _ _ => []

def assignedInArray : List Tree → List Token
  | [] => []
  | .phrase .arrayInitialiserList elements :: _ => assignedInElements elements
  | _ :: rest => assignedInArray rest

def assignedInElements : List Tree → List Token
  | [] => []
  | .token _ :: rest => assignedInElements rest
  | .phrase _ parts :: rest => assignedInValue parts ++ assignedInElements rest

def assignedInValue : List Tree → List Token
  | [] => []
  | .phrase .arrayValue values :: _ => assignedInLast values
  | _ :: rest => assignedInValue rest

def assignedInLast : List Tree → List Token
  | [] => []
  | [last] => assignedTokens last
  | _ :: rest => assignedInLast rest

end

def variableOf (type : String) (token : Token) : Symbol :=
  { kind := .localVariable
    name := doc.tokenText token
    location := tokenLocation doc token
    type := type }

def declareTargets (target? : Option Tree) (state : DeclarationState) : DeclarationState :=
  match target? with
  | some target => state.addChildren ((assignedTokens target).map (variableOf doc ""))
  | none => state

def firstPhrase? (tree : Tree) : Option Tree :=
  tree.children.find? (·.phraseKind?.isSome)

/-- The variable of a catch clause has the union of the caught types. -/
def declareCaught (tree : Tree) (state : DeclarationState) : DeclarationState :=
  match tree.childToken? .variableName with
  | none => state
  | some token =>
    let type :=
      match tree.childPhrase? .catchNameList with
      | some list => TypeExpr.mergeAll (resolvedNames doc state.resolver list)
      | none => ""
    state.addChild (variableOf doc type token)

/-! ### The walk -/

def enterDeclaration (kind : PhraseKind) (tree : Tree) (state : DeclarationState) :
    DeclarationState :=
  let comment := state.pending.map (·.1)
  let taken := { state with pending := none }
  match kind with
  | .namespaceDefinition => enterNamespace doc tree state
  | .namespaceUseDeclaration => (importsOf doc tree).foldl declareImport state
  | .constDeclaration => taken.addChildren (constantsOf doc state comment tree)
  | .functionDeclaration => openFunction (functionOf doc) tree state
  | .methodDeclaration => openFunction (methodOf doc) tree state
  | .anonymousFunctionCreationExpression => openFunction (closureOf doc) tree state
  | .classDeclaration | .interfaceDeclaration | .traitDeclaration =>
    openClassLike doc kind tree state
  | .propertyDeclaration => taken.addChildren (propertiesOf doc state comment tree)
  | .classConstDeclaration => taken.addChildren (classConstantsOf doc state comment tree)
  | .traitUseClause => useTraits doc tree state
  | .functionCallExpression => state.addChildren (definedConstant? doc tree).toList
  | .simpleAssignmentExpression | .byRefAssignmentExpression | .compoundAssignmentExpression =>
    declareTargets doc tree.children.head? state
  | .foreachKey | .foreachValue => declareTargets doc (firstPhrase? tree) state
  | .catchClause => declareCaught doc tree state
  | _ => state

def leaveDeclaration (kind : PhraseKind) (tree : Tree) (state : DeclarationState) :
    DeclarationState :=
  match kind with
  | .functionDeclaration | .methodDeclaration | .anonymousFunctionCreationExpression =>
    state.closeSymbol
  | .classDeclaration | .interfaceDeclaration | .traitDeclaration =>
    { state.closeSymbol with resolver := state.resolver.leaveClass }
  | .namespaceDefinition =>
    if (tree.childPhrase? .compoundStatement).isSome then
      { state with resolver := state.resolver.enterNamespace "" }
    else state
  | _ => state

/-- Phrases that declare nothing further inside, or whose parts are read from outside. -/
def descendsForDeclarations : PhraseKind → Bool
  | .error | .namespaceName | .namespaceUseDeclaration | .constDeclaration
  | .functionDeclarationHeader | .classDeclarationHeader | .interfaceDeclarationHeader
  | .traitDeclarationHeader | .methodDeclarationHeader | .anonymousFunctionHeader
  | .propertyDeclaration | .classConstDeclaration | .traitUseClause => false
  | _ => true

def declarationWalk : Walk DeclarationState where
  token := declarationToken doc
  enter := enterDeclaration doc
  descends := descendsForDeclarations
  leave := leaveDeclaration

end Reading

/-- The declarations of a document. -/
def SymbolTable.ofDocument (doc : Document) : SymbolTable :=
  let state := (Reading.declarationWalk doc).run doc.tree (Reading.DeclarationState.start doc)
  SymbolTable.new doc.uri state.closeSymbols.root

end SymbolIndex
