import SymbolIndex.Document
import SymbolIndex.NameResolver
import SymbolIndex.TypeExpr

/-!
# Names and types in trees

What the small phrases of a tree say: names, declared types, literals, modifiers and imports.
-/

namespace SymbolIndex.Reading

open SymbolIndex.Text

/-- A full name, and the name as it is written where that may be meant too. -/
structure ResolvedName where
  name : String
  altName : Option String := none
  deriving DecidableEq, Repr, Inhabited

def isNameKind : PhraseKind → Bool
  | .qualifiedName | .fullyQualifiedName | .relativeQualifiedName => true
  | _ => false

def isName (tree : Tree) : Bool :=
  tree.phraseKind?.any isNameKind

/-- A method of this name is a constructor or just a method. -/
def methodKind (name : String) : SymbolKind :=
  if eqIgnoringCase name "__construct" then .constructor else .method

/-- The text of a name without the blanks inside it. -/
def nameText (doc : Document) (tree : Tree) : String :=
  String.ofList ((doc.treeText tree).toList.filter fun c => !isBlank c)

/-- The text of the first token of a kind directly below a phrase. -/
def childTokenText? (doc : Document) (tree : Tree) (kind : TokenKind) : Option String :=
  (tree.childToken? kind).map doc.tokenText

/-- The text of the name phrase of a kind directly below a phrase. -/
def childNameText? (doc : Document) (tree : Tree) (kind : PhraseKind) : Option String :=
  (tree.childPhrase? kind).map (nameText doc)

def asciiLowered (text : String) : String :=
  String.ofList (asciiLower text.toList)

/-- Resolves a name as it is written. A function or a constant without a qualifier may be the
global one, unless there is no namespace or an import says otherwise. -/
def resolveText (resolver : NameResolver) (text : String) (kind : SymbolKind) : ResolvedName :=
  let lowered := asciiLowered text
  if lowered = "self" ∨ lowered = "parent" ∨ lowered = "static" then
    ⟨resolver.resolve text kind true, some lowered⟩
  else
    let mayBeGlobal :=
      (kind == .function || kind == .constant) && !NameResolver.isQualified text &&
        resolver.namespaceName != "" && !resolver.hasImport text kind
    ⟨resolver.resolve text kind false, if mayBeGlobal then some text else none⟩

/-- What follows the word `namespace` and a backslash. -/
def afterNamespaceWord (text : String) : String :=
  String.ofList ((SourceText.dropBytes? 10 text.toList).getD [])

/-- Resolves a name phrase. -/
def resolveName (doc : Document) (resolver : NameResolver) (tree : Tree) (kind : SymbolKind) :
    ResolvedName :=
  let text := nameText doc tree
  match tree.phraseKind? with
  | some .fullyQualifiedName => ⟨String.ofList (text.toList.dropWhile (· == '\\')), none⟩
  | some .relativeQualifiedName => ⟨resolver.relative (afterNamespaceWord text), none⟩
  | _ => resolveText resolver text kind

/-- The full names of the name phrases directly below a phrase. -/
def resolvedNames (doc : Document) (resolver : NameResolver) (tree : Tree) : List String :=
  (tree.children.filter isName).map fun name => (resolveName doc resolver name .classType).name

/-- Resolves the class names of a type given in a comment. -/
def resolveDocType (resolver : NameResolver) (type : String) : String :=
  TypeExpr.resolveNames type fun name => resolver.resolve name .classType false

/-- The type that one child of a type declaration contributes. -/
def declaredMember? (doc : Document) (resolver : NameResolver) (tree : Tree) : Option String :=
  match tree with
  | .token leaf =>
    match leaf.kind with
    | .arrayKeyword | .callableKeyword | .staticKeyword =>
      some (asciiLowered (doc.tokenText leaf))
    | _ => none
  | .phrase kind _ =>
    if isNameKind kind then
      let text := nameText doc tree
      some (if TypeExpr.isKeyword text then asciiLowered text
        else (resolveName doc resolver tree .classType).name)
    else none

/-- The type that a type declaration declares. A question mark adds null to it. -/
def declaredType (doc : Document) (resolver : NameResolver) (tree : Tree) : String :=
  let type := TypeExpr.mergeAll (tree.children.filterMap (declaredMember? doc resolver))
  if tree.children.any (·.isToken .question) && type != "" then TypeExpr.merge type "null"
  else type

/-- The declared type below a phrase, empty if there is none. -/
def childDeclaredType (doc : Document) (resolver : NameResolver) (tree : Tree) : String :=
  match tree.childPhrase? .typeDeclaration with
  | some declaration => declaredType doc resolver declaration
  | none => ""

mutual

/-- The type of a literal; empty for anything else. -/
def literalType (doc : Document) : Tree → String
  | .token leaf =>
    match leaf.kind with
    | .integerLiteral => "int"
    | .floatingLiteral => "float"
    | .stringLiteral => "string"
    | _ => ""
  | .phrase kind children =>
    match kind with
    | .arrayCreationExpression => "array"
    | .constantAccessExpression =>
      match asciiLowered (nameText doc (.phrase kind children)) with
      | "true" | "false" => "bool"
      | "null" => "null"
      | _ => ""
    | .unaryExpression | .encapsulatedExpression => lastLiteralType doc children
    | _ => ""

/-- The type of the last of some trees, closing parentheses aside. -/
def lastLiteralType (doc : Document) : List Tree → String
  | [] => ""
  | tree :: rest =>
    if rest.any fun later => !later.isToken .closeParenthesis then lastLiteralType doc rest
    else if tree.isToken .closeParenthesis then ""
    else literalType doc tree

end

def modifierOf : TokenKind → Modifiers
  | .publicKeyword | .varKeyword => .isPublic
  | .protectedKeyword => .isProtected
  | .privateKeyword => .isPrivate
  | .staticKeyword => .isStatic
  | .abstractKeyword => .isAbstract
  | .finalKeyword => .isFinal
  | .readOnlyKeyword => .readOnly
  | _ => .empty

/-- The modifiers directly below a phrase. -/
def modifiersOf (tree : Tree) : Modifiers :=
  (tree.children.filterMap Tree.token?).foldl (fun all leaf => all ∪ modifierOf leaf.kind) .empty

/-- The modifiers of a member; without a visibility it is public. -/
def memberModifiers (tree? : Option Tree) : Modifiers :=
  let modifiers :=
    match tree?.bind fun tree => tree.childPhrase? .memberModifierList with
    | some list => modifiersOf list
    | none => .empty
  if modifiers.meets .visibility then modifiers else modifiers ∪ .isPublic

/-! ### Imports -/

def importKind? (tree : Tree) : Option SymbolKind :=
  if (tree.childToken? .functionKeyword).isSome then some .function
  else if (tree.childToken? .constKeyword).isSome then some .constant
  else none

/-- The import that a clause declares. `leading` is the common beginning of a group. -/
def importOf? (doc : Document) (kind : SymbolKind) (leading : String) (clause : Tree) :
    Option Symbol :=
  (childNameText? doc clause .namespaceName).map fun written =>
    let target := if leading = "" then written else leading ++ "\\" ++ written
    let aliasName := (clause.childPhrase? .namespaceAliasingClause).bind fun aliasing =>
      childTokenText? doc aliasing .plainName
    { kind := kind
      name := aliasName.getD (shortName target)
      location := some (doc.location (doc.treeRange clause))
      modifiers := .isUse
      associated := [⟨kind, target⟩] }

/-- The imports of a use declaration, in the order of its clauses. -/
def importsOf (doc : Document) (tree : Tree) : List Symbol :=
  let kind := (importKind? tree).getD .classType
  match tree.childPhrase? .namespaceUseClauseList with
  | some list =>
    (list.children.filter (·.isPhrase .namespaceUseClause)).filterMap (importOf? doc kind "")
  | none =>
    let leading := (childNameText? doc tree .namespaceName).getD ""
    match tree.childPhrase? .namespaceUseGroupClauseList with
    | some list =>
      (list.children.filter (·.isPhrase .namespaceUseGroupClause)).filterMap fun clause =>
        importOf? doc ((importKind? clause).getD kind) leading clause
    | none => []

end SymbolIndex.Reading
