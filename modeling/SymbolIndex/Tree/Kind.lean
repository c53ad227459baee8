/-!
# Kinds of tokens and phrases

The vocabulary of the syntax trees that the readers take: what a token is, and which construct a
phrase stands for. Every kind has the name under which trees are exchanged.
-/

namespace SymbolIndex

/-- What a token is. The kinds that end in `Keyword` are reserved words; `operatorMark` is any
punctuation without a kind of its own. -/
inductive TokenKind where
  | unknown
  | endOfFile
  | whitespace
  | comment
  | documentComment
  | openTag
  | plainName
  | variableName
  | stringLiteral
  | integerLiteral
  | floatingLiteral
  | backslash
  | semicolon
  | comma
  | colon
  | colonColon
  | question
  | ampersand
  | ellipsis
  | bar
  | equals
  | fatArrow
  | arrow
  | openBrace
  | closeBrace
  | openParenthesis
  | closeParenthesis
  | openBracket
  | closeBracket
  | operatorMark
  | abstractKeyword
  | arrayKeyword
  | asKeyword
  | callableKeyword
  | caseKeyword
  | catchKeyword
  | classKeyword
  | cloneKeyword
  | constKeyword
  | defaultKeyword
  | doKeyword
  | echoKeyword
  | elseKeyword
  | elseIfKeyword
  | extendsKeyword
  | finalKeyword
  | finallyKeyword
  | forKeyword
  | foreachKeyword
  | functionKeyword
  | globalKeyword
  | ifKeyword
  | implementsKeyword
  | instanceOfKeyword
  | interfaceKeyword
  | namespaceKeyword
  | newKeyword
  | privateKeyword
  | protectedKeyword
  | publicKeyword
  | readOnlyKeyword
  | returnKeyword
  | staticKeyword
  | switchKeyword
  | throwKeyword
  | traitKeyword
  | tryKeyword
  | useKeyword
  | varKeyword
  | whileKeyword
  deriving DecidableEq, Repr, Inhabited

/-- Which construct a phrase stands for. `error` wraps what a parser could not make sense of. -/
inductive PhraseKind where
  | sourceFile
  | statementList
  | compoundStatement
  | expressionStatement
  | returnStatement
  | echoStatement
  | throwStatement
  | namespaceDefinition
  | namespaceName
  | qualifiedName
  | fullyQualifiedName
  | relativeQualifiedName
  | qualifiedNameList
  | namespaceUseDeclaration
  | namespaceUseClauseList
  | namespaceUseClause
  | namespaceUseGroupClauseList
  | namespaceUseGroupClause
  | namespaceAliasingClause
  | constDeclaration
  | constElementList
  | constElement
  | functionDeclaration
  | functionDeclarationHeader
  | functionDeclarationBody
  | parameterDeclarationList
  | parameterDeclaration
  | typeDeclaration
  | returnType
  | classDeclaration
  | classDeclarationHeader
  | classModifiers
  | classBaseClause
  | classInterfaceClause
  | classDeclarationBody
  | classMemberDeclarationList
  | interfaceDeclaration
  | interfaceDeclarationHeader
  | interfaceBaseClause
  | interfaceDeclarationBody
  | traitDeclaration
  | traitDeclarationHeader
  | traitDeclarationBody
  | traitUseClause
  | traitUseSpecification
  | memberModifierList
  | propertyDeclaration
  | propertyElementList
  | propertyElement
  | propertyInitialiser
  | classConstDeclaration
  | classConstElementList
  | classConstElement
  | methodDeclaration
  | methodDeclarationHeader
  | methodDeclarationBody
  | identifier
  | anonymousFunctionCreationExpression
  | anonymousFunctionHeader
  | anonymousFunctionUseClause
  | closureUseList
  | anonymousFunctionUseVariable
  | simpleVariable
  | simpleAssignmentExpression
  | byRefAssignmentExpression
  | compoundAssignmentExpression
  | objectCreationExpression
  | classTypeDesignator
  | relativeScope
  | methodCallExpression
  | propertyAccessExpression
  | memberName
  | scopedCallExpression
  | scopedPropertyAccessExpression
  | classConstantAccessExpression
  | scopedMemberName
  | functionCallExpression
  | argumentExpressionList
  | subscriptExpression
  | encapsulatedExpression
  | constantAccessExpression
  | arrayCreationExpression
  | arrayInitialiserList
  | arrayElement
  | arrayKey
  | arrayValue
  | ternaryExpression
  | binaryExpression
  | unaryExpression
  | instanceOfExpression
  | instanceofTypeDesignator
  | cloneExpression
  | ifStatement
  | elseIfClauseList
  | elseIfClause
  | elseClause
  | switchStatement
  | caseStatementList
  | caseStatement
  | defaultStatement
  | whileStatement
  | doStatement
  | forStatement
  | foreachStatement
  | foreachCollection
  | foreachKey
  | foreachValue
  | tryStatement
  | catchClause
  | catchNameList
  | finallyClause
  | error
  deriving DecidableEq, Repr, Inhabited

namespace TokenKind

def all : List TokenKind :=
  [unknown, endOfFile, whitespace, comment, documentComment, openTag, plainName, variableName,
    stringLiteral, integerLiteral, floatingLiteral, backslash, semicolon, comma, colon,
    colonColon, question, ampersand, ellipsis, bar, equals, fatArrow, arrow, openBrace,
    closeBrace, openParenthesis, closeParenthesis, openBracket, closeBracket, operatorMark,
    abstractKeyword, arrayKeyword, asKeyword, callableKeyword, caseKeyword, catchKeyword,
    classKeyword, cloneKeyword, constKeyword, defaultKeyword, doKeyword, echoKeyword,
    elseKeyword, elseIfKeyword, extendsKeyword, finalKeyword, finallyKeyword, forKeyword,
    foreachKeyword, functionKeyword, globalKeyword, ifKeyword, implementsKeyword,
    instanceOfKeyword, interfaceKeyword, namespaceKeyword, newKeyword, privateKeyword,
    protectedKeyword, publicKeyword, readOnlyKeyword, returnKeyword, staticKeyword,
    switchKeyword, throwKeyword, traitKeyword, tryKeyword, useKeyword, varKeyword,
    whileKeyword]

/-- The name under which a kind is exchanged. -/
def name : TokenKind → String
  | unknown => "Unknown"
  | endOfFile => "EndOfFile"
  | whitespace => "Whitespace"
  | comment => "Comment"
  | documentComment => "DocumentComment"
  | openTag => "OpenTag"
  | plainName => "Name"
  | variableName => "VariableName"
  | stringLiteral => "StringLiteral"
  | integerLiteral => "IntegerLiteral"
  | floatingLiteral => "FloatingLiteral"
  | backslash => "Backslash"
  | semicolon => "Semicolon"
  | comma => "Comma"
  | colon => "Colon"
  | colonColon => "ColonColon"
  | question => "Question"
  | ampersand => "Ampersand"
  | ellipsis => "Ellipsis"
  | bar => "Bar"
  | equals => "Equals"
  | fatArrow => "FatArrow"
  | arrow => "Arrow"
  | openBrace => "OpenBrace"
  | closeBrace => "CloseBrace"
  | openParenthesis => "OpenParenthesis"
  | closeParenthesis => "CloseParenthesis"
  | openBracket => "OpenBracket"
  | closeBracket => "CloseBracket"
  | operatorMark => "Operator"
  | abstractKeyword => "Abstract"
  | arrayKeyword => "Array"
  | asKeyword => "As"
  | callableKeyword => "Callable"
  | caseKeyword => "Case"
  | catchKeyword => "Catch"
  | classKeyword => "Class"
  | cloneKeyword => "Clone"
  | constKeyword => "Const"
  | defaultKeyword => "Default"
  | doKeyword => "Do"
  | echoKeyword => "Echo"
  | elseKeyword => "Else"
  | elseIfKeyword => "ElseIf"
  | extendsKeyword => "Extends"
  | finalKeyword => "Final"
  | finallyKeyword => "Finally"
  | forKeyword => "For"
  | foreachKeyword => "Foreach"
  | functionKeyword => "Function"
  | globalKeyword => "Global"
  | ifKeyword => "If"
  | implementsKeyword => "Implements"
  | instanceOfKeyword => "InstanceOf"
  | interfaceKeyword => "Interface"
  | namespaceKeyword => "Namespace"
  | newKeyword => "New"
  | privateKeyword => "Private"
  | protectedKeyword => "Protected"
  | publicKeyword => "Public"
  | readOnlyKeyword => "ReadOnly"
  | returnKeyword => "Return"
  | staticKeyword => "Static"
  | switchKeyword => "Switch"
  | throwKeyword => "Throw"
  | traitKeyword => "Trait"
  | tryKeyword => "Try"
  | useKeyword => "Use"
  | varKeyword => "Var"
  | whileKeyword => "While"

def ofName? (name : String) : Option TokenKind :=
  all.find? (·.name == name)

/-- Tokens that belong to no construct: blanks and comments. -/
def isTrivia : TokenKind → Bool
  | whitespace | comment | documentComment => true
  | _ => false

end TokenKind

namespace PhraseKind

def all : List PhraseKind :=
  [sourceFile, statementList, compoundStatement, expressionStatement, returnStatement,
    echoStatement, throwStatement, namespaceDefinition, namespaceName, qualifiedName,
    fullyQualifiedName, relativeQualifiedName, qualifiedNameList, namespaceUseDeclaration,
    namespaceUseClauseList, namespaceUseClause, namespaceUseGroupClauseList,
    namespaceUseGroupClause, namespaceAliasingClause, constDeclaration, constElementList,
    constElement, functionDeclaration, functionDeclarationHeader, functionDeclarationBody,
    parameterDeclarationList, parameterDeclaration, typeDeclaration, returnType,
    classDeclaration, classDeclarationHeader, classModifiers, classBaseClause,
    classInterfaceClause, classDeclarationBody, classMemberDeclarationList,
    interfaceDeclaration, interfaceDeclarationHeader, interfaceBaseClause,
    interfaceDeclarationBody, traitDeclaration, traitDeclarationHeader, traitDeclarationBody,
    traitUseClause, traitUseSpecification, memberModifierList, propertyDeclaration,
    propertyElementList, propertyElement, propertyInitialiser, classConstDeclaration,
    classConstElementList, classConstElement, methodDeclaration, methodDeclarationHeader,
    methodDeclarationBody, identifier, anonymousFunctionCreationExpression,
    anonymousFunctionHeader, anonymousFunctionUseClause, closureUseList,
    anonymousFunctionUseVariable, simpleVariable, simpleAssignmentExpression,
    byRefAssignmentExpression, compoundAssignmentExpression, objectCreationExpression,
    classTypeDesignator, relativeScope, methodCallExpression, propertyAccessExpression,
    memberName, scopedCallExpression, scopedPropertyAccessExpression,
    classConstantAccessExpression, scopedMemberName, functionCallExpression,
    argumentExpressionList, subscriptExpression, encapsulatedExpression,
    constantAccessExpression, arrayCreationExpression, arrayInitialiserList, arrayElement,
    arrayKey, arrayValue, ternaryExpression, binaryExpression, unaryExpression,
    instanceOfExpression, instanceofTypeDesignator, cloneExpression, ifStatement,
    elseIfClauseList, elseIfClause, elseClause, switchStatement, caseStatementList,
    caseStatement, defaultStatement, whileStatement, doStatement, forStatement,
    foreachStatement, foreachCollection, foreachKey, foreachValue, tryStatement, catchClause,
    catchNameList, finallyClause, error]

/-- The name under which a kind is exchanged. -/
def name : PhraseKind → String
  | sourceFile => "SourceFile"
  | statementList => "StatementList"
  | compoundStatement => "CompoundStatement"
  | expressionStatement => "ExpressionStatement"
  | returnStatement => "ReturnStatement"
  | echoStatement => "EchoStatement"
  | throwStatement => "ThrowStatement"
  | namespaceDefinition => "NamespaceDefinition"
  | namespaceName => "NamespaceName"
  | qualifiedName => "QualifiedName"
  | fullyQualifiedName => "FullyQualifiedName"
  | relativeQualifiedName => "RelativeQualifiedName"
  | qualifiedNameList => "QualifiedNameList"
  | namespaceUseDeclaration => "NamespaceUseDeclaration"
  | namespaceUseClauseList => "NamespaceUseClauseList"
  | namespaceUseClause => "NamespaceUseClause"
  | namespaceUseGroupClauseList => "NamespaceUseGroupClauseList"
  | namespaceUseGroupClause => "NamespaceUseGroupClause"
  | namespaceAliasingClause => "NamespaceAliasingClause"
  | constDeclaration => "ConstDeclaration"
  | constElementList => "ConstElementList"
  | constElement => "ConstElement"
  | functionDeclaration => "FunctionDeclaration"
  | functionDeclarationHeader => "FunctionDeclarationHeader"
  | functionDeclarationBody => "FunctionDeclarationBody"
  | parameterDeclarationList => "ParameterDeclarationList"
  | parameterDeclaration => "ParameterDeclaration"
  | typeDeclaration => "TypeDeclaration"
  | returnType => "ReturnType"
  | classDeclaration => "ClassDeclaration"
  | classDeclarationHeader => "ClassDeclarationHeader"
  | classModifiers => "ClassModifiers"
  | classBaseClause => "ClassBaseClause"
  | classInterfaceClause => "ClassInterfaceClause"
  | classDeclarationBody => "ClassDeclarationBody"
  | classMemberDeclarationList => "ClassMemberDeclarationList"
  | interfaceDeclaration => "InterfaceDeclaration"
  | interfaceDeclarationHeader => "InterfaceDeclarationHeader"
  | interfaceBaseClause => "InterfaceBaseClause"
  | interfaceDeclarationBody => "InterfaceDeclarationBody"
  | traitDeclaration => "TraitDeclaration"
  | traitDeclarationHeader => "TraitDeclarationHeader"
  | traitDeclarationBody => "TraitDeclarationBody"
  | traitUseClause => "TraitUseClause"
  | traitUseSpecification => "TraitUseSpecification"
  | memberModifierList => "MemberModifierList"
  | propertyDeclaration => "PropertyDeclaration"
  | propertyElementList => "PropertyElementList"
  | propertyElement => "PropertyElement"
  | propertyInitialiser => "PropertyInitialiser"
  | classConstDeclaration => "ClassConstDeclaration"
  | classConstElementList => "ClassConstElementList"
  | classConstElement => "ClassConstElement"
  | methodDeclaration => "MethodDeclaration"
  | methodDeclarationHeader => "MethodDeclarationHeader"
  | methodDeclarationBody => "MethodDeclarationBody"
  | identifier => "Identifier"
  | anonymousFunctionCreationExpression => "AnonymousFunctionCreationExpression"
  | anonymousFunctionHeader => "AnonymousFunctionHeader"
  | anonymousFunctionUseClause => "AnonymousFunctionUseClause"
  | closureUseList => "ClosureUseList"
  | anonymousFunctionUseVariable => "AnonymousFunctionUseVariable"
  | simpleVariable => "SimpleVariable"
  | simpleAssignmentExpression => "SimpleAssignmentExpression"
  | byRefAssignmentExpression => "ByRefAssignmentExpression"
  | compoundAssignmentExpression => "CompoundAssignmentExpression"
  | objectCreationExpression => "ObjectCreationExpression"
  | classTypeDesignator => "ClassTypeDesignator"
  | relativeScope => "RelativeScope"
  | methodCallExpression => "MethodCallExpression"
  | propertyAccessExpression => "PropertyAccessExpression"
  | memberName => "MemberName"
  | scopedCallExpression => "ScopedCallExpression"
  | scopedPropertyAccessExpression => "ScopedPropertyAccessExpression"
  | classConstantAccessExpression => "ClassConstantAccessExpression"
  | scopedMemberName => "ScopedMemberName"
  | functionCallExpression => "FunctionCallExpression"
  | argumentExpressionList => "ArgumentExpressionList"
  | subscriptExpression => "SubscriptExpression"
  | encapsulatedExpression => "EncapsulatedExpression"
  | constantAccessExpression => "ConstantAccessExpression"
  | arrayCreationExpression => "ArrayCreationExpression"
  | arrayInitialiserList => "ArrayInitialiserList"
  | arrayElement => "ArrayElement"
  | arrayKey => "ArrayKey"
  | arrayValue => "ArrayValue"
  | ternaryExpression => "TernaryExpression"
  | binaryExpression => "BinaryExpression"
  | unaryExpression => "UnaryExpression"
  | instanceOfExpression => "InstanceOfExpression"
  | instanceofTypeDesignator => "InstanceofTypeDesignator"
  | cloneExpression => "CloneExpression"
  | ifStatement => "IfStatement"
  | elseIfClauseList => "ElseIfClauseList"
  | elseIfClause => "ElseIfClause"
  | elseClause => "ElseClause"
  | switchStatement => "SwitchStatement"
  | caseStatementList => "CaseStatementList"
  | caseStatement => "CaseStatement"
  | defaultStatement => "DefaultStatement"
  | whileStatement => "WhileStatement"
  | doStatement => "DoStatement"
  | forStatement => "ForStatement"
  | foreachStatement => "ForeachStatement"
  | foreachCollection => "ForeachCollection"
  | foreachKey => "ForeachKey"
  | foreachValue => "ForeachValue"
  | tryStatement => "TryStatement"
  | catchClause => "CatchClause"
  | catchNameList => "CatchNameList"
  | finallyClause => "FinallyClause"
  | error => "Error"

def ofName? (name : String) : Option PhraseKind :=
  all.find? (·.name == name)

end PhraseKind

end SymbolIndex
