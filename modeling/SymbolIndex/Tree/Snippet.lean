import SymbolIndex.Text.Blank
import SymbolIndex.Text.Numeral
import SymbolIndex.Document
import SymbolIndex.Tree.Layout

/-!
# Snippets of source code

Drafts of the common constructs, written in terms of the words they consist of. Laid over the
source text, they give the tree a parser would give.
-/

namespace SymbolIndex.Snippet

open SymbolIndex.Text

def modifierKind : String → TokenKind
  | "public" => .publicKeyword
  | "protected" => .protectedKeyword
  | "private" => .privateKeyword
  | "static" => .staticKeyword
  | "abstract" => .abstractKeyword
  | "final" => .finalKeyword
  | "readonly" => .readOnlyKeyword
  | "var" => .varKeyword
  | _ => .unknown

/-- Puts `separator` between the items. -/
def separated (separator : Draft) : List Draft → List Draft
  | [] => []
  | [item] => [item]
  | item :: rest => item :: separator :: separated separator rest

def comma : Draft := .word .comma ","
def semicolon : Draft := .word .semicolon ";"
def backslash : Draft := .word .backslash "\\"
def openBrace : Draft := .word .openBrace "\x7b"
def closeBrace : Draft := .word .closeBrace "\x7d"
def openParenthesis : Draft := .word .openParenthesis "("
def closeParenthesis : Draft := .word .closeParenthesis ")"
def equalsSign : Draft := .word .equals "="

def docComment (text : String) : Draft :=
  .word .documentComment text

def namespaceName (text : String) : Draft :=
  .phrase .namespaceName (separated backslash
    ((splitOn '\\' text.toList).map fun segment => .word .plainName (String.ofList segment)))

/-- A qualified name; a fully qualified one with a backslash in front; a relative one with the
word `namespace` in front. -/
def name (text : String) : Draft :=
  match text.toList with
  | '\\' :: rest => .phrase .fullyQualifiedName [backslash, namespaceName (String.ofList rest)]
  | chars =>
    match "namespace\\".toList.isPrefixOf? chars with
    | some rest =>
      .phrase .relativeQualifiedName
        [.word .namespaceKeyword "namespace", backslash, namespaceName (String.ofList rest)]
    | none => .phrase .qualifiedName [namespaceName text]

def nameList (names : List String) : Draft :=
  .phrase .qualifiedNameList (separated comma (names.map name))

def namespaceDefinition (text : String) : Draft :=
  .phrase .namespaceDefinition
    [.word .namespaceKeyword "namespace", namespaceName text, semicolon]

def block (statements : List Draft) : Draft :=
  .phrase .compoundStatement [openBrace, .phrase .statementList statements, closeBrace]

def namespaceBlock (text : String) (statements : List Draft) : Draft :=
  .phrase .namespaceDefinition
    [.word .namespaceKeyword "namespace", namespaceName text, block statements]

def trimmed (chars : List Char) : String :=
  String.ofList (trim chars)

/-- An imported name, with its alias after `as`. -/
def useClause (kind : PhraseKind) (clause : String) : Draft :=
  let chars := clause.toList
  match before? " as ".toList chars with
  | some target =>
    .phrase kind
      [namespaceName (trimmed target),
        .phrase .namespaceAliasingClause
          [.word .asKeyword "as", .word .plainName (trimmed (chars.drop (target.length + 4)))]]
  | none => .phrase kind [namespaceName (trimmed chars)]

def useClauses (clauses : List String) : Draft :=
  .phrase .namespaceUseClauseList
    (separated comma (clauses.map (useClause .namespaceUseClause)))

def useDeclaration (clauses : List String) : Draft :=
  .phrase .namespaceUseDeclaration [.word .useKeyword "use", useClauses clauses, semicolon]

def useFunction (clauses : List String) : Draft :=
  .phrase .namespaceUseDeclaration
    [.word .useKeyword "use", .word .functionKeyword "function", useClauses clauses, semicolon]

def useGroup (leading : String) (clauses : List String) : Draft :=
  .phrase .namespaceUseDeclaration
    [.word .useKeyword "use", namespaceName leading, backslash, openBrace,
      .phrase .namespaceUseGroupClauseList
        (separated comma (clauses.map (useClause .namespaceUseGroupClause))),
      closeBrace, semicolon]

def modifierTokens (modifiers : List String) : List Draft :=
  modifiers.map fun modifier => .word (modifierKind modifier) modifier

/-- The modifiers as one phrase, or nothing when there are none. -/
def modifierList (kind : PhraseKind) (modifiers : List String) : List Draft :=
  if modifiers.isEmpty then [] else [.phrase kind (modifierTokens modifiers)]

def memberBlock (kind : PhraseKind) (members : List Draft) : Draft :=
  .phrase kind [openBrace, .phrase .classMemberDeclarationList members, closeBrace]

def classDeclaration (modifiers : List String) (className : String) (extends? : Option String)
    (implemented : List String) (members : List Draft) : Draft :=
  let baseClause := extends?.toList.map fun base =>
    .phrase .classBaseClause [.word .extendsKeyword "extends", name base]
  let interfaceClause :=
    if implemented.isEmpty then []
    else [.phrase .classInterfaceClause
      [.word .implementsKeyword "implements", nameList implemented]]
  .phrase .classDeclaration
    [.phrase .classDeclarationHeader
      (modifierList .classModifiers modifiers ++
        [.word .classKeyword "class", .word .plainName className] ++ baseClause ++
        interfaceClause),
      memberBlock .classDeclarationBody members]

def interfaceDeclaration (interfaceName : String) (extended : List String)
    (members : List Draft) : Draft :=
  let baseClause :=
    if extended.isEmpty then []
    else [.phrase .interfaceBaseClause [.word .extendsKeyword "extends", nameList extended]]
  .phrase .interfaceDeclaration
    [.phrase .interfaceDeclarationHeader
      ([.word .interfaceKeyword "interface", .word .plainName interfaceName] ++ baseClause),
      memberBlock .interfaceDeclarationBody members]

def traitDeclaration (traitName : String) (members : List Draft) : Draft :=
  .phrase .traitDeclaration
    [.phrase .traitDeclarationHeader
      [.word .traitKeyword "trait", .word .plainName traitName],
      memberBlock .traitDeclarationBody members]

def useTraits (names : List String) : Draft :=
  .phrase .traitUseClause [.word .useKeyword "use", nameList names, semicolon]

/-- One member of a declared type: a built-in word or the name of a class. -/
def typeMember (chars : List Char) : Draft :=
  match String.ofList chars with
  | "array" => .word .arrayKeyword "array"
  | "callable" => .word .callableKeyword "callable"
  | "static" => .word .staticKeyword "static"
  | text => name text

def typeDeclaration (text : String) : Draft :=
  let members (chars : List Char) : List Draft :=
    separated (.word .bar "|") ((splitOn '|' chars).map typeMember)
  match text.toList with
  | '?' :: rest => .phrase .typeDeclaration (.word .question "?" :: members rest)
  | chars => .phrase .typeDeclaration (members chars)

def arrayLiteral (items : List Draft) : Draft :=
  let elements := items.map fun item => .phrase .arrayElement [.phrase .arrayValue [item]]
  .phrase .arrayCreationExpression
    (.word .openBracket "[" ::
      (if items.isEmpty then [] else [.phrase .arrayInitialiserList elements]) ++
      [.word .closeBracket "]"])

def stringLiteral (text : String) : Draft :=
  .word .stringLiteral text

def integerLiteral (text : String) : Draft :=
  .word .integerLiteral text

def constant (text : String) : Draft :=
  .phrase .constantAccessExpression [name text]

/-- A quoted string, a number, the empty array or a constant. -/
def literal (text : String) : Draft :=
  if text.toList.head?.any (fun c => c == '\'' || c == '"') then stringLiteral text
  else if isWholeNumber text then integerLiteral text
  else if isDecimal text then .word .floatingLiteral text
  else if text = "[]" then arrayLiteral []
  else constant text

/-- An optional mark in front of a word. -/
def leadingMark (mark : String) (kind : TokenKind) (chars : List Char) :
    List Draft × List Char :=
  match mark.toList.isPrefixOf? chars with
  | some rest => ([.word kind mark], rest)
  | none => ([], chars)

/-- One parameter as it is written: a type, the marks, the variable, and a default after the
equals sign. -/
def parameter (text : String) : Draft :=
  let chars := text.toList
  let declared := chars.takeWhile (· != '=')
  let default := chars.drop (declared.length + 1)
  let (type, rest) :=
    match words declared with
    | first :: more =>
      if first.head?.any (fun c => c == '$' || c == '&' || c == '.') then ([], first :: more)
      else ([typeDeclaration (String.ofList first)], more)
    | [] => ([], [])
  let (ampersand, rest) := leadingMark "&" .ampersand rest.flatten
  let (ellipsis, rest) := leadingMark "..." .ellipsis rest
  let value :=
    if chars.length = declared.length then [] else [equalsSign, literal (trimmed default)]
  .phrase .parameterDeclaration
    (type ++ ampersand ++ ellipsis ++ [.word .variableName (String.ofList rest)] ++ value)

def parameters (texts : List String) : List Draft :=
  [openParenthesis] ++
    (if texts.isEmpty then []
      else [.phrase .parameterDeclarationList (separated comma (texts.map parameter))]) ++
    [closeParenthesis]

def returnType (type? : Option String) : List Draft :=
  type?.toList.map fun type =>
    .phrase .returnType [.word .colon ":", typeDeclaration type]

def identifier (text : String) : Draft :=
  .phrase .identifier [.word .plainName text]

def methodHeader (modifiers : List String) (methodName : String) (texts : List String)
    (type? : Option String) : Draft :=
  .phrase .methodDeclarationHeader
    (modifierList .memberModifierList modifiers ++
      [.word .functionKeyword "function", identifier methodName] ++ parameters texts ++
      returnType type?)

def method (modifiers : List String) (methodName : String) (texts : List String)
    (type? : Option String) (body : List Draft) : Draft :=
  .phrase .methodDeclaration
    [methodHeader modifiers methodName texts type?, .phrase .methodDeclarationBody [block body]]

/-- A method without a body. -/
def methodSignature (modifiers : List String) (methodName : String) (texts : List String)
    (type? : Option String) : Draft :=
  .phrase .methodDeclaration
    [methodHeader modifiers methodName texts type?, .phrase .methodDeclarationBody [semicolon]]

def property (modifiers : List String) (type? : Option String) (propertyName : String)
    (initial? : Option String) : Draft :=
  let initialiser := initial?.toList.map fun initial =>
    .phrase .propertyInitialiser [equalsSign, literal initial]
  .phrase .propertyDeclaration
    (modifierList .memberModifierList modifiers ++ type?.toList.map typeDeclaration ++
      [.phrase .propertyElementList
        [.phrase .propertyElement (.word .variableName propertyName :: initialiser)],
        semicolon])

def classConstant (modifiers : List String) (constantName value : String) : Draft :=
  .phrase .classConstDeclaration
    (modifierList .memberModifierList modifiers ++
      [.word .constKeyword "const",
        .phrase .classConstElementList
          [.phrase .classConstElement [identifier constantName, equalsSign, literal value]],
        semicolon])

def constantDeclaration (constantName value : String) : Draft :=
  .phrase .constDeclaration
    [.word .constKeyword "const",
      .phrase .constElementList
        [.phrase .constElement [.word .plainName constantName, equalsSign, literal value]],
      semicolon]

def function (functionName : String) (texts : List String) (type? : Option String)
    (body : List Draft) : Draft :=
  .phrase .functionDeclaration
    [.phrase .functionDeclarationHeader
      ([.word .functionKeyword "function", .word .plainName functionName] ++ parameters texts ++
        returnType type?),
      .phrase .functionDeclarationBody [block body]]

/-- A variable that a closure takes from around it, by reference after an ampersand. -/
def capturedVariable (text : String) : Draft :=
  let (ampersand, rest) := leadingMark "&" .ampersand text.toList
  .phrase .anonymousFunctionUseVariable
    (ampersand ++ [.word .variableName (String.ofList rest)])

def closure (isStatic : Bool) (texts captured : List String) (body : List Draft) : Draft :=
  let useClause :=
    if captured.isEmpty then []
    else [.phrase .anonymousFunctionUseClause
      [.word .useKeyword "use", openParenthesis,
        .phrase .closureUseList (separated comma (captured.map capturedVariable)),
        closeParenthesis]]
  .phrase .anonymousFunctionCreationExpression
    [.phrase .anonymousFunctionHeader
      ((if isStatic then [.word .staticKeyword "static"] else []) ++
        [.word .functionKeyword "function"] ++ parameters texts ++ useClause),
      block body]

def expressionStatement (expression : Draft) : Draft :=
  .phrase .expressionStatement [expression, semicolon]

def returnStatement (expression : Draft) : Draft :=
  .phrase .returnStatement [.word .returnKeyword "return", expression, semicolon]

def ifHead (condition : Draft) : List Draft :=
  [.word .ifKeyword "if", openParenthesis, condition, closeParenthesis]

def ifStatement (condition : Draft) (body : List Draft) : Draft :=
  .phrase .ifStatement (ifHead condition ++ [block body])

def ifElse (condition : Draft) (body otherwise : List Draft) : Draft :=
  .phrase .ifStatement
    (ifHead condition ++
      [block body, .phrase .elseClause [.word .elseKeyword "else", block otherwise]])

def variableUse (text : String) : Draft :=
  .phrase .simpleVariable [.word .variableName text]

def foreachStatement (collection : Draft) (value : String) (body : List Draft) : Draft :=
  .phrase .foreachStatement
    [.word .foreachKeyword "foreach", openParenthesis, .phrase .foreachCollection [collection],
      .word .asKeyword "as", .phrase .foreachValue [variableUse value], closeParenthesis,
      block body]

def tryCatch (body : List Draft) (types : List String) (caught : String)
    (handler : List Draft) : Draft :=
  .phrase .tryStatement
    [.word .tryKeyword "try", block body,
      .phrase .catchClause
        [.word .catchKeyword "catch", openParenthesis,
          .phrase .catchNameList (separated (.word .bar "|") (types.map name)),
          .word .variableName caught, closeParenthesis, block handler]]

def assignment (target value : Draft) : Draft :=
  .phrase .simpleAssignmentExpression [target, equalsSign, value]

def arguments (values : List Draft) : List Draft :=
  [openParenthesis] ++
    (if values.isEmpty then [] else [.phrase .argumentExpressionList values]) ++
    [closeParenthesis]

/-- What stands before `::` or after `new`: the word `static`, a variable or a class. -/
def scopeDesignator (text : String) : Draft :=
  if text = "static" then .phrase .relativeScope [.word .staticKeyword "static"]
  else if text.toList.head? = some '$' then variableUse text
  else name text

def creation (className : String) (values : List Draft) : Draft :=
  .phrase .objectCreationExpression
    ([.word .newKeyword "new", .phrase .classTypeDesignator [scopeDesignator className]] ++
      arguments values)

def memberName (text : String) : Draft :=
  .phrase .memberName [.word .plainName text]

def methodCall (receiver : Draft) (methodName : String) (values : List Draft) : Draft :=
  .phrase .methodCallExpression
    ([receiver, .word .arrow "->", memberName methodName] ++ arguments values)

def propertyAccess (receiver : Draft) (propertyName : String) : Draft :=
  .phrase .propertyAccessExpression [receiver, .word .arrow "->", memberName propertyName]

/-- The two words around and the mark `::` between a class and its member. -/
def scopedAccess (kind : PhraseKind) (scope : String) (member : Draft) (tail : List Draft) :
    Draft :=
  .phrase kind
    ([scopeDesignator scope, .word .colonColon "::", .phrase .scopedMemberName [member]] ++ tail)

def staticCall (scope methodName : String) (values : List Draft) : Draft :=
  scopedAccess .scopedCallExpression scope (identifier methodName) (arguments values)

def staticProperty (scope propertyName : String) : Draft :=
  scopedAccess .scopedPropertyAccessExpression scope (variableUse propertyName) []

def classConstantAccess (scope constantName : String) : Draft :=
  scopedAccess .classConstantAccessExpression scope (identifier constantName) []

def call (functionName : String) (values : List Draft) : Draft :=
  .phrase .functionCallExpression (name functionName :: arguments values)

def subscript (array : Draft) (index? : Option String) : Draft :=
  .phrase .subscriptExpression
    ([array, .word .openBracket "["] ++ index?.toList.map literal ++ [.word .closeBracket "]"])

def instanceOf (value : Draft) (className : String) : Draft :=
  .phrase .instanceOfExpression
    [value, .word .instanceOfKeyword "instanceof",
      .phrase .instanceofTypeDesignator [name className]]

def parenthesised (expression : Draft) : Draft :=
  .phrase .encapsulatedExpression [openParenthesis, expression, closeParenthesis]

def binary (left : Draft) (mark : String) (right : Draft) : Draft :=
  .phrase .binaryExpression [left, .word .operatorMark mark, right]

/-- A whole source file with the given statements. -/
def sourceFile (statements : List Draft) : Draft :=
  .phrase .sourceFile [.word .openTag "<?php", .phrase .statementList statements]

/-- The document that a list of statements makes over a text. -/
def document (uri text : String) (statements : List Draft) : Document :=
  ⟨uri, text, (sourceFile statements).toTree text⟩

end SymbolIndex.Snippet
