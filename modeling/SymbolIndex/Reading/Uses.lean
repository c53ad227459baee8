import SymbolIndex.DocComment
import SymbolIndex.Reading.Names
import SymbolIndex.Reading.Walk
import SymbolIndex.SymbolStore
import SymbolIndex.VariableTable

/-!
# Reading uses

One walk over the tree of a document gives its reference table. Every phrase that is gone below
collects what its parts are: their types, and which variable and which reference they stand for.
When the phrase is left it becomes a part of the phrase around it. So the type of a call is at hand
where its result is used.
-/

namespace SymbolIndex.Reading

open SymbolIndex.Text

/-- What a phrase around needs to know of one of its parts. `variableName` is set for a variable
and for an element of one, and `reference` is the place of the reference of a variable in its
scope. -/
structure Part where
  phrase : Option PhraseKind := none
  isOperator : Bool := false
  type : String := ""
  text : String := ""
  range : Range := ⟨⟨0, 0⟩, ⟨0, 0⟩⟩
  variableName : Option String := none
  reference : Option Nat := none
  deriving Inhabited

namespace Part

def typed (type : String) : Part :=
  { type := type }

/-- The variable, when the part is just a variable. -/
def plainVariable? (part : Part) : Option String :=
  if part.phrase = some .simpleVariable then part.variableName else none

end Part

/-- A phrase that is being read, with its parts so far. -/
structure Frame where
  kind : PhraseKind
  parts : List Part := []
  deriving Inhabited

namespace Frame

def operands (frame : Frame) : List Part :=
  frame.parts.filter fun part => !part.isOperator

def first? (frame : Frame) : Option Part :=
  frame.operands.head?

def find? (frame : Frame) (kind : PhraseKind) : Option Part :=
  frame.parts.find? (·.phrase == some kind)

def firstType (frame : Frame) : String :=
  (frame.first?.map (·.type)).getD ""

/-- The type of the part of a kind. -/
def typeOf (frame : Frame) (kind : PhraseKind) : String :=
  ((frame.find? kind).map (·.type)).getD ""

/-- The first operator between the operands. -/
def operator? (frame : Frame) : Option String :=
  (frame.parts.find? (·.isOperator)).map (·.text)

end Frame

/-- The state of the walk. Of each stack the innermost element stands first: `scope` is the
innermost scope and `outer` the ones around it, `contexts` are the declarations around.
`pendingType` is a type given in a comment for the next assignment. -/
structure UseState where
  resolver : NameResolver := {}
  varTypes : VariableTable := {}
  scope : Scope
  outer : List Scope := []
  frames : List Frame := []
  contexts : List Symbol := []
  pendingType : Option String := none
  deriving Inhabited

namespace UseState

def start (doc : Document) : UseState :=
  { scope := ⟨doc.location doc.fullRange, []⟩ }

def parentKind? (state : UseState) : Option PhraseKind :=
  state.frames.head?.map (·.kind)

/-- Hands a part to the phrase around. -/
def pushPart (state : UseState) (part : Part) : UseState :=
  match state.frames with
  | [] => state
  | frame :: rest => { state with frames := { frame with parts := frame.parts ++ [part] } :: rest }

/-- The place at which the next reference will stand in its scope. -/
def nextPlace (state : UseState) : Nat :=
  state.scope.children.length

def emit (state : UseState) (reference : Reference) : UseState :=
  { state with
    scope := { state.scope with children := state.scope.children ++ [.reference reference] } }

def emitAll (state : UseState) (references : List Reference) : UseState :=
  references.foldl emit state

/-- Gives a type to a reference, and leaves a scope as it is. -/
def withType (type : String) : ScopeChild → ScopeChild
  | .reference reference => .reference { reference with type := type }
  | .scope inner => .scope inner

/-- Gives a type to the reference at a place of the innermost scope. -/
def patchType (state : UseState) (place : Option Nat) (type : String) : UseState :=
  match place with
  | none => state
  | some place =>
    { state with
      scope :=
        { state.scope with children := state.scope.children.modify place (withType type) } }

def openScope (state : UseState) (location : Location) : UseState :=
  { state with scope := ⟨location, []⟩, outer := state.scope :: state.outer }

/-- Adds the innermost scope to the one around it. -/
def closeScope (state : UseState) : UseState :=
  match state.outer with
  | [] => state
  | around :: rest =>
    { state with
      scope := { around with children := around.children ++ [.scope state.scope] }
      outer := rest }

/-- Closes all scopes that are still open. -/
def closeScopes (state : UseState) : UseState :=
  state.outer.foldl (fun state _ => state.closeScope) state

def className (state : UseState) : String :=
  state.resolver.className?.getD ""

/-- The innermost class-like declaration around. -/
def classAround? (state : UseState) : Option Symbol :=
  state.contexts.find? (·.kind.isClassLike)

/-- The innermost declaration around, if it is a function. -/
def functionAround? (state : UseState) : Option Symbol :=
  state.contexts.head?.filter fun symbol =>
    symbol.kind.isScope && !symbol.kind.isClassLike

/-- The type of a member of the class around. -/
def memberType (state : UseState) (kind : SymbolKind) (name : String) : String :=
  ((state.classAround?.bind fun owner =>
    owner.children.find? fun member => member.kind == kind && member.name == name).map
      (·.type)).getD ""

def setVariable (state : UseState) (name type : String) : UseState :=
  { state with varTypes := state.varTypes.setType name type }

end UseState

variable (doc : Document) (table : SymbolTable) (source : SymbolSource)

/-- The union of the types of what a reference refers to. -/
def lookupType (reference : Reference) : String :=
  TypeExpr.mergeAll ((source.resolve reference .override).map (·.type))

/-! ### Tokens -/

def isMemberListKind : PhraseKind → Bool
  | .classMemberDeclarationList | .classDeclarationBody | .interfaceDeclarationBody
  | .traitDeclarationBody => true
  | _ => false

/-- Takes the types that a comment gives to variables. One without a name waits for the next
assignment. -/
def inlineTag (state : UseState) (tag : DocTag) : UseState :=
  let type := resolveDocType state.resolver tag.type
  if tag.name = "" then { state with pendingType := some type } else state.setVariable tag.name type

def inlineComment (token : Token) (state : UseState) : UseState :=
  if state.parentKind?.any isMemberListKind then state
  else (DocComment.parse (doc.tokenText token)).variableTags.foldl inlineTag state

/-- The reference of the name in the header of a declaration, or in a constant. -/
def declarationReference? (token : Token) (state : UseState) : Option Reference :=
  let location := doc.location (doc.tokenRange token)
  match state.parentKind? with
  | some .functionDeclarationHeader =>
    state.functionAround?.map fun function =>
      { kind := .function, name := function.name, type := function.type, location := location }
  | some .classDeclarationHeader | some .interfaceDeclarationHeader
  | some .traitDeclarationHeader =>
    some
      { kind := .classType, name := state.className, type := state.className,
        location := location }
  | some .constElement =>
    let name := state.resolver.relative (doc.tokenText token)
    let constant? := table.find? fun symbol => symbol.kind == .constant && symbol.name == name
    some
      { kind := .constant, name := name, type := (constant?.map (·.type)).getD "",
        location := location }
  | _ => none

/-- A variable outside a variable phrase: a parameter, a property, a caught exception or another
variable. -/
def variableToken (token : Token) (state : UseState) : UseState :=
  let name := doc.tokenText token
  let location := doc.location (doc.tokenRange token)
  let known := state.varTypes.getType name
  match state.parentKind? with
  | some .parameterDeclaration =>
    state.emit { kind := .parameter, name := name, type := known, location := location }
  | some .propertyElement =>
    state.emit
      { kind := .property, name := name, scope := state.className,
        type := state.memberType .property name, location := location }
  | some .catchClause =>
    let type := (state.frames.head?.map (·.typeOf .catchNameList)).getD ""
    (state.setVariable name type).emit
      { kind := .localVariable, name := name, type := type, location := location }
  | _ => state.emit { kind := .localVariable, name := name, type := known, location := location }

def useToken (token : Token) (state : UseState) : UseState :=
  match token.kind with
  | .documentComment => inlineComment doc token state
  | .openBrace | .closeBrace | .semicolon => { state with pendingType := none }
  | .integerLiteral => state.pushPart (.typed "int")
  | .floatingLiteral => state.pushPart (.typed "float")
  | .stringLiteral => state.pushPart (.typed "string")
  | .operatorMark => state.pushPart { isOperator := true, text := doc.tokenText token }
  | .plainName => state.emitAll (declarationReference? doc table token state).toList
  | .variableName => variableToken doc token state
  | _ => state

/-! ### Variables and names -/

def simpleVariable (tree : Tree) (state : UseState) : UseState :=
  match tree.childToken? .variableName with
  | none => state
  | some token =>
    let name := doc.tokenText token
    let range := doc.tokenRange token
    let known := state.varTypes.getType name
    let type := if known = "" ∧ name = "$this" then state.className else known
    let place := state.nextPlace
    let mention : Reference :=
      { kind := .localVariable, name := name, type := type, location := doc.location range }
    (state.emit mention).pushPart
      { phrase := some .simpleVariable, type := type, text := name, range := range,
        variableName := some name, reference := some place }

/-- What a name is used for: the name of a called function, a constant, or a class. -/
def usedKind (state : UseState) : SymbolKind :=
  match state.parentKind? with
  | some .functionCallExpression =>
    if state.frames.head?.any (·.parts.isEmpty) then .function else .classType
  | some .constantAccessExpression => .constant
  | _ => .classType

/-- The type of a name that is a word of the language and not the name of a declaration. -/
def builtInType? (state : UseState) (kind : SymbolKind) (text : String) : Option String :=
  if kind = .classType ∧ state.parentKind? = some .typeDeclaration ∧ TypeExpr.isKeyword text then
    some (asciiLowered text)
  else if kind = .constant then
    match asciiLowered text with
    | "true" | "false" => some "bool"
    | "null" => some "null"
    | _ => none
  else none

def nameUse (tree : Tree) (state : UseState) : UseState :=
  let kind := usedKind state
  match builtInType? state kind (nameText doc tree) with
  | some type => state.pushPart (.typed type)
  | none =>
    let range := doc.treeRange tree
    let resolved := resolveName doc state.resolver tree kind
    let untyped : Reference :=
      { kind := kind, name := resolved.name, altName := resolved.altName,
        location := doc.location range }
    let type := if kind = .classType then resolved.name else lookupType source untyped
    let place := state.nextPlace
    (state.emit { untyped with type := type }).pushPart
      { phrase := tree.phraseKind?, type := type, text := resolved.name, range := range,
        reference := some place }

/-- The name of a member behind `::`, a variable or an identifier. -/
def scopedMemberText (tree : Tree) : String :=
  match tree.childPhrase? .simpleVariable with
  | some inner => nameText doc inner
  | none => (childNameText? doc tree .identifier).getD (nameText doc tree)

def memberPart (kind : PhraseKind) (tree : Tree) (text : String) : Part :=
  { phrase := some kind, text := text, range := doc.treeRange tree }

/-- An identifier declares a method or a class constant, or names a member. -/
def identifierUse (tree : Tree) (state : UseState) : UseState :=
  let location := doc.location (doc.treeRange tree)
  match state.parentKind? with
  | some .methodDeclarationHeader =>
    match state.functionAround? with
    | none => state
    | some method =>
      state.emit
        { kind := methodKind method.name, name := method.name, scope := state.className,
          type := method.type, location := location }
  | some .classConstElement =>
    let name := nameText doc tree
    state.emit
      { kind := .classConstant, name := name, scope := state.className,
        type := state.memberType .classConstant name, location := location }
  | _ => state.pushPart (memberPart doc .identifier tree (nameText doc tree))

/-! ### Declarations -/

def namespaceUse (tree : Tree) (state : UseState) : UseState :=
  let name? := tree.childPhrase? .namespaceName
  let name := (name?.map (nameText doc)).getD ""
  let inside := { state with resolver := state.resolver.enterNamespace name }
  let inside :=
    if (tree.childPhrase? .compoundStatement).isSome then
      inside.openScope (doc.location (doc.treeRange tree))
    else inside
  match name? with
  | none => inside
  | some nameTree =>
    inside.emit
      { kind := .namespaceMark, name := name, location := doc.location (doc.treeRange nameTree) }

/-- The reference of an import to what it imports. -/
def importReference? (symbol : Symbol) : Option Reference := do
  let target ← symbol.associated.head?
  let location ← symbol.location
  some
    { kind := symbol.kind, name := target.name,
      type := if symbol.kind = .classType then target.name else "", location := location }

def importUse (state : UseState) (symbol : Symbol) : UseState :=
  let state := state.emitAll (importReference? symbol).toList
  { state with resolver := state.resolver.addImport symbol }

def isFunctionKind (kind : SymbolKind) : Bool :=
  kind == .function || kind == .method || kind == .constructor

/-- The class-like symbol that was read from a phrase, else one without a name. -/
def classFrom (tree : Tree) : Symbol :=
  (table.find? fun symbol =>
    symbol.kind.isClassLike && symbol.range? == some (doc.treeRange tree)).getD
      { kind := .classType, name := "" }

/-- The function that was read from a phrase, else one without a name. -/
def functionFrom (tree : Tree) : Symbol :=
  (table.find? fun symbol =>
    isFunctionKind symbol.kind && symbol.range? == some (doc.treeRange tree)).getD
      { kind := .function, name := "" }

def enterClass (tree : Tree) (state : UseState) : UseState :=
  let symbol := classFrom doc table tree
  { state with
    resolver := state.resolver.enterClass symbol
    contexts := symbol :: state.contexts }.openScope (doc.location (doc.treeRange tree))

def leaveClass (state : UseState) : UseState :=
  { state.closeScope with
    contexts := state.contexts.tail
    resolver := state.resolver.leaveClass }

/-- The variables around that are known inside a function: for a closure the captured ones, and
`$this` unless it is static. -/
def carriedInto (symbol : Symbol) : List String :=
  if symbol.modifiers.containsAll .anonymous then
    (symbol.children.filter (·.isUse)).map (·.name) ++
      if symbol.modifiers.containsAll .isStatic then [] else ["$this"]
  else []

/-- A method that is not static knows `$this`. -/
def bindsThis (symbol : Symbol) : Bool :=
  (symbol.kind == .method || symbol.kind == .constructor) &&
    !symbol.modifiers.containsAll .isStatic

/-- The variables known at the start of a function. -/
def functionVariables (symbol : Symbol) (className : String) (around : VariableTable) :
    VariableTable :=
  let inside := symbol.parameters.foldl
    (fun known parameter => known.setType parameter.name parameter.type)
    (around.openScope (carriedInto symbol))
  if bindsThis symbol then inside.setType "$this" className else inside

def enterFunction (tree : Tree) (state : UseState) : UseState :=
  let symbol := functionFrom doc table tree
  { state with
    varTypes := functionVariables symbol state.className state.varTypes
    contexts := symbol :: state.contexts }.openScope (doc.location (doc.treeRange tree))

def leaveFunction (state : UseState) : UseState :=
  { state.closeScope with
    contexts := state.contexts.tail
    varTypes := state.varTypes.closeScope }

/-! ### Expressions -/

/-- An assignment to a variable gives it a type, that of a comment before that of the value. An
assignment to an element adds to the elements of the variable. -/
def assign (frame : Frame) (state : UseState) : UseState × Part :=
  match frame.operands with
  | [] => (state, {})
  | target :: rest =>
    let value := (rest.getLast?.map (·.type)).getD ""
    match target.phrase, target.variableName with
    | some .simpleVariable, some name =>
      let type := state.pendingType.getD value
      let state := { state with pendingType := none }.setVariable name type
      (state.patchType target.reference type, .typed type)
    | some .subscriptExpression, some name =>
      let type := TypeExpr.merge (state.varTypes.getType name) (TypeExpr.arrayOf value)
      (state.setVariable name type, .typed value)
    | _, _ => (state, .typed value)

/-- Adds the reference of a member, typed by what it is looked up in. -/
def emitMember (reference : Reference) (state : UseState) : UseState × Part :=
  let type :=
    if reference.scope = "" then ""
    else TypeExpr.rebind (lookupType source reference) reference.scope
  (state.emit { reference with type := type }, .typed type)

/-- A method or a property of an object. -/
def memberAccess (isCall : Bool) (frame : Frame) (state : UseState) : UseState × Part :=
  match frame.find? .memberName with
  | none => (state, {})
  | some member =>
    emitMember source
      { kind := if isCall then methodKind member.text else .property
        name := if isCall then member.text else "$" ++ member.text
        scope := frame.firstType
        location := doc.location member.range } state

/-- A method, a property or a constant of a class. The constant `class` of any class is its
name. -/
def scopedAccess (kind : SymbolKind) (frame : Frame) (state : UseState) : UseState × Part :=
  match frame.find? .scopedMemberName with
  | none => (state, {})
  | some member =>
    if kind = .classConstant ∧ eqIgnoringCase member.text "class" then (state, .typed "string")
    else
      emitMember source
        { kind := if kind = .method then methodKind member.text else kind
          name := member.text
          scope := frame.firstType
          location := doc.location member.range } state

/-- The word `static` refers to the class around. -/
def relativeScope (tree : Tree) (state : UseState) : UseState × Part :=
  (state.emit
    { kind := .classType, name := state.className, altName := some "static",
      type := state.className, location := doc.location (doc.treeRange tree) },
    .typed state.className)

/-- The type of an operation on two values. -/
def binaryType (mark left right : String) : String :=
  match mark with
  | "." => "string"
  | "==" | "===" | "!=" | "!==" | "<>" | "<" | ">" | "<=" | ">=" | "&&" | "||" | "and" | "or"
  | "xor" => "bool"
  | "??" => TypeExpr.merge left right
  | "<=>" => "int"
  | "+" | "-" | "*" | "%" | "**" | "/" =>
    if mark ≠ "/" ∧ left = "int" ∧ right = "int" then "int"
    else if left = "float" ∨ right = "float" then "float"
    else "int|float"
  | _ => ""

def binary (frame : Frame) : String :=
  binaryType (asciiLowered (frame.operator?.getD "")) frame.firstType
    ((frame.operands.getLast?.map (·.type)).getD "")

/-- A test of the class of a variable narrows its type in the condition of a conditional. -/
def instanceTest (frame : Frame) (state : UseState) : UseState :=
  let className := frame.typeOf .instanceofTypeDesignator
  let isCondition :=
    state.parentKind? = some .ifStatement ∨ state.parentKind? = some .elseIfClause
  match frame.first?.bind Part.plainVariable? with
  | some name => if isCondition ∧ className ≠ "" then state.setVariable name className else state
  | none => state

/-- The variable of a loop has the type of the elements of the collection. -/
def loopValue (frame : Frame) (state : UseState) : UseState :=
  let collection := (state.frames.head?.map (·.typeOf .foreachCollection)).getD ""
  let element := TypeExpr.element collection
  match frame.first? with
  | none => state
  | some target =>
    match target.plainVariable? with
    | some name => (state.setVariable name element).patchType target.reference element
    | none => state

/-- The type of the values of an array literal; unknown if that of some value is. -/
def elementsType (frame : Frame) : String :=
  let elements := frame.parts.filter (·.phrase == some .arrayElement)
  if elements.any (·.type == "") then "" else TypeExpr.mergeAll (elements.map (·.type))

def arrayType (frame : Frame) : String :=
  let elements := frame.typeOf .arrayInitialiserList
  if elements = "" then "array" else TypeExpr.arrayOf elements

def ternaryType (frame : Frame) : String :=
  match frame.operands with
  | [_, first, second] => TypeExpr.merge first.type second.type
  | [first, second] => TypeExpr.merge first.type second.type
  | _ => ""

def subscriptPart (frame : Frame) : Part :=
  { type := TypeExpr.element frame.firstType
    variableName := frame.first?.bind Part.plainVariable? }

/-- The class that a designator names; a variable names none. -/
def designatedType (frame : Frame) : String :=
  match frame.first? with
  | some part => if part.phrase = some .simpleVariable then "" else part.type
  | none => ""

/-- The type of what a call of a named function returns. -/
def callType (frame : Frame) : String :=
  match frame.first? with
  | some callee => if callee.phrase.any isNameKind then callee.type else ""
  | none => ""

/-! ### The walk -/

/-- The part that a phrase becomes, for the phrases that have a value. -/
def valueOf (tree : Tree) (frame : Frame) (state : UseState) : UseState × Option Part :=
  let valued (result : UseState × Part) : UseState × Option Part := (result.1, some result.2)
  let typed (type : String) : UseState × Option Part := (state, some (.typed type))
  match frame.kind with
  | .classDeclaration | .interfaceDeclaration | .traitDeclaration => (leaveClass state, none)
  | .functionDeclaration | .methodDeclaration => (leaveFunction state, none)
  | .anonymousFunctionCreationExpression => (leaveFunction state, some (.typed "Closure"))
  | .ifStatement | .switchStatement =>
    ({ state with varTypes := state.varTypes.closeBranch.uniteBranches }, none)
  | .namespaceDefinition =>
    if (tree.childPhrase? .compoundStatement).isSome then
      ({ state.closeScope with resolver := state.resolver.enterNamespace "" }, none)
    else (state, none)
  | .simpleAssignmentExpression | .byRefAssignmentExpression => valued (assign frame state)
  | .compoundAssignmentExpression =>
    typed (if frame.operator? = some ".=" then "string" else frame.firstType)
  | .objectCreationExpression => typed (frame.typeOf .classTypeDesignator)
  | .classTypeDesignator | .instanceofTypeDesignator => typed (designatedType frame)
  | .relativeScope => valued (relativeScope doc tree state)
  | .methodCallExpression => valued (memberAccess doc source true frame state)
  | .propertyAccessExpression => valued (memberAccess doc source false frame state)
  | .scopedCallExpression => valued (scopedAccess doc source .method frame state)
  | .scopedPropertyAccessExpression => valued (scopedAccess doc source .property frame state)
  | .classConstantAccessExpression => valued (scopedAccess doc source .classConstant frame state)
  | .functionCallExpression => typed (callType frame)
  | .subscriptExpression => (state, some (subscriptPart frame))
  | .encapsulatedExpression | .constantAccessExpression | .cloneExpression | .arrayValue
  | .foreachCollection => typed frame.firstType
  | .arrayElement => typed (frame.typeOf .arrayValue)
  | .arrayInitialiserList => typed (elementsType frame)
  | .arrayCreationExpression => typed (arrayType frame)
  | .ternaryExpression => typed (ternaryType frame)
  | .binaryExpression => typed (binary frame)
  | .unaryExpression => typed (if frame.operator? = some "!" then "bool" else frame.firstType)
  | .instanceOfExpression => (instanceTest frame state, some (.typed "bool"))
  | .foreachValue => (loopValue frame state, none)
  | .catchNameList => typed (TypeExpr.mergeAll (frame.parts.map (·.type)))
  | _ => (state, none)

/-- What happens before a phrase is gone below, or instead of it. -/
def enterPlain (kind : PhraseKind) (tree : Tree) (state : UseState) : UseState :=
  match kind with
  | .qualifiedName | .fullyQualifiedName | .relativeQualifiedName => nameUse doc source tree state
  | .simpleVariable => simpleVariable doc tree state
  | .identifier => identifierUse doc tree state
  | .scopedMemberName =>
    state.pushPart (memberPart doc .scopedMemberName tree (scopedMemberText doc tree))
  | .memberName => state.pushPart (memberPart doc .memberName tree (nameText doc tree))
  | .namespaceUseDeclaration => (importsOf doc tree).foldl importUse state
  | .namespaceDefinition => namespaceUse doc tree state
  | .classDeclaration | .interfaceDeclaration | .traitDeclaration =>
    enterClass doc table tree state
  | .functionDeclaration | .methodDeclaration | .anonymousFunctionCreationExpression =>
    enterFunction doc table tree state
  | .ifStatement | .switchStatement => { state with varTypes := state.varTypes.openBranch }
  | .elseIfClause | .elseClause | .caseStatement | .defaultStatement =>
    { state with varTypes := state.varTypes.closeBranch.openBranch }
  | _ => state

/-- Phrases that are read as a whole, or not at all. -/
def descendsForUses : PhraseKind → Bool
  | .error | .namespaceName | .qualifiedName | .fullyQualifiedName | .relativeQualifiedName
  | .simpleVariable | .memberName | .scopedMemberName | .identifier
  | .namespaceUseDeclaration => false
  | _ => true

/-- Opens a frame for a phrase that is gone below. -/
def enterUse (kind : PhraseKind) (tree : Tree) (state : UseState) : UseState :=
  let state := enterPlain doc table source kind tree state
  if descendsForUses kind then { state with frames := { kind := kind } :: state.frames } else state

/-- Closes the frame of a phrase and hands what it became to the phrase around. -/
def leaveUse (tree : Tree) (state : UseState) : UseState :=
  match state.frames with
  | [] => state
  | frame :: rest =>
    match valueOf doc source tree frame { state with frames := rest } with
    | (state, none) => state
    | (state, some part) => state.pushPart { part with phrase := some frame.kind }

def useWalk : Walk UseState where
  token := useToken doc table
  enter := enterUse doc table source
  descends := descendsForUses
  leave := fun _ tree state => leaveUse doc source tree state

end Reading

/-- The references of a document with the given symbol table, typed by what `source` knows. -/
def ReferenceTable.ofDocument (doc : Document) (table : SymbolTable) (source : SymbolSource) :
    ReferenceTable :=
  let state := (Reading.useWalk doc table source).run doc.tree (Reading.UseState.start doc)
  ReferenceTable.new doc.uri state.closeScopes.scope

end SymbolIndex
