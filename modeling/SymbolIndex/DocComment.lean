import SymbolIndex.Text.Blank
import SymbolIndex.Text.Casing
import SymbolIndex.Text.Search

/-!
# Doc comments

A doc comment is a text followed by tags. Reading takes off the comment marks, cuts the rest at the
lines that start with `@`, and recognises each tag by its first word. A tag that does not have the
shape its word asks for is left out.
-/

namespace SymbolIndex

open SymbolIndex.Text

inductive TagKind where
  | parameter
  | variableType
  | property
  | propertyRead
  | propertyWrite
  | returned
  | method
  deriving DecidableEq, Repr, Inhabited

namespace TagKind

/-- A property, whether or not it can be both read and written. -/
def isProperty : TagKind → Bool
  | property | propertyRead | propertyWrite => true
  | _ => false

end TagKind

/-- A parameter in the signature that a method tag gives. -/
structure TagParameter where
  type : String
  name : String
  default : Option String
  deriving DecidableEq, Repr, Inhabited

/-- A tag. The name is that of a variable with its dollar sign, or that of a method. -/
structure DocTag where
  kind : TagKind
  type : String
  name : String
  description : String
  isStatic : Bool := false
  parameters : List TagParameter := []
  deriving DecidableEq, Repr, Inhabited

structure DocComment where
  text : String
  tags : List DocTag
  inheritsDoc : Bool
  deriving DecidableEq, Repr, Inhabited

namespace DocComment

/-! ### Comment marks -/

def isSpaceOrTab (c : Char) : Bool :=
  c == ' ' || c == '\t'

/-- The length of the opening mark, with the blanks after it. -/
def openingLength? (chars : List Char) : Option Nat :=
  ("/**".toList.isPrefixOf? chars).map fun rest => 3 + (rest.takeWhile isSpaceOrTab).length

/-- The length of the closing mark at the end of a line, with the blanks before it. -/
def closingLength? (chars : List Char) : Option Nat :=
  match chars.dropWhile isBlank with
  | '*' :: '/' :: rest =>
    if rest.head?.all (· == '\n') then some ((chars.takeWhile isBlank).length + 2) else none
  | _ => none

/-- The length of the star that a line starts with, with the blanks before it and one after it. -/
def starLength? (chars : List Char) : Option Nat :=
  let margin := (chars.takeWhile isSpaceOrTab).length
  match chars.dropWhile isSpaceOrTab with
  | '*' :: rest => some (margin + 1 + if rest.head?.any isSpaceOrTab then 1 else 0)
  | _ => none

/-- The length of the comment mark at this place, if there is one. -/
def markLength? (lineStart : Bool) (chars : List Char) : Option Nat :=
  (if lineStart then openingLength? chars else none).or
    ((closingLength? chars).or (if lineStart then starLength? chars else none))

/-- Leaves out the comment marks. `skip` characters belong to the mark before, and `lineStart`
says that a line starts here. -/
def dropMarks (skip : Nat) (lineStart : Bool) : List Char → List Char
  | [] => []
  | c :: rest =>
    match skip with
    | skip + 1 => dropMarks skip (c == '\n') rest
    | 0 =>
      match markLength? lineStart (c :: rest) with
      | some (length + 1) => dropMarks length (c == '\n') rest
      | _ => c :: dropMarks 0 (c == '\n') rest

/-- What a comment says, without its marks. -/
def content (comment : List Char) : List Char :=
  trim (dropMarks 0 true comment)

/-! ### Text and tags -/

def startsTag (line : List Char) : Bool :=
  (line.dropWhile isBlank).head? == some '@'

/-- Lines with line ends between them. -/
def joinLines (lines : List (List Char)) : List Char :=
  List.intercalate ['\n'] lines

/-- The lines before the first tag. -/
def textLines (lines : List (List Char)) : List (List Char) :=
  lines.takeWhile fun line => !startsTag line

/-- The tags, each with the lines up to the next one. -/
def chunks : List (List Char) → List (List Char)
  | [] => []
  | line :: rest =>
    if startsTag line then
      joinLines (trim line :: textLines rest) :: chunks rest
    else chunks rest

def isWordChar (c : Char) : Bool :=
  !isBlank c

/-- The next word and what follows it. -/
def nextWord (chars : List Char) : List Char × List Char :=
  let start := chars.dropWhile isBlank
  (start.takeWhile isWordChar, start.dropWhile isWordChar)

def described (kind : TagKind) (type name description : List Char) : DocTag :=
  ⟨kind, String.ofList type, String.ofList name, String.ofList (trim description), false, []⟩

/-- A variable with its dollar sign and at least one character more. -/
def isVariable : List Char → Bool
  | '$' :: _ :: _ => true
  | _ => false

/-- A variable behind an optional ampersand and an optional ellipsis. -/
def markedVariable? (word : List Char) : Option (List Char) :=
  let word := match word with
    | '&' :: rest => rest
    | word => word
  let word := match word with
    | '.' :: '.' :: '.' :: rest => rest
    | word => word
  if isVariable word then some word else none

/-- A tag with a type and a variable. -/
def variableTag? (kind : TagKind) (chars : List Char) : Option DocTag :=
  let (type, rest) := nextWord chars
  let (word, rest) := nextWord rest
  (markedVariable? word).map fun name => described kind type name rest

/-- A tag with a type and perhaps a variable. -/
def typeTag? (chars : List Char) : Option DocTag :=
  let (type, rest) := nextWord chars
  if type.isEmpty then none
  else
    let (word, afterWord) := nextWord rest
    some (if isVariable word then described .variableType type word afterWord
      else described .variableType type [] rest)

def returnTag? (chars : List Char) : Option DocTag :=
  let (type, rest) := nextWord chars
  if type.isEmpty then none else some (described .returned type [] rest)

/-! ### Method tags -/

/-- The parts of a signature: the name, what the parentheses hold, and what follows them. -/
structure Signature where
  name : List Char
  parameters : List Char
  rest : List Char

/-- Cuts at the first closing parenthesis. -/
def closeParenthesis? (chars : List Char) : Option (List Char × List Char) :=
  match chars.dropWhile (· != ')') with
  | [] => none
  | _ :: rest => some (trim (chars.takeWhile (· != ')')), rest)

/-- Cuts at the last opening parenthesis of the first word that comes after some name and is closed
somewhere. `name` holds the characters before, the nearest first. -/
def signatureFrom? (name : List Char) : List Char → Option Signature
  | [] => none
  | c :: rest =>
    if isBlank c then none
    else
      (signatureFrom? (c :: name) rest).or <|
        if c = '(' ∧ name ≠ [] then
          (closeParenthesis? rest).map fun (parameters, rest) => ⟨name.reverse, parameters, rest⟩
        else none

def signature? (chars : List Char) : Option Signature :=
  signatureFrom? [] chars

/-- A signature behind a type. -/
def typedSignature? (chars : List Char) : Option (List Char × Signature) :=
  let type := chars.takeWhile isWordChar
  let rest := (chars.dropWhile isWordChar).dropWhile isBlank
  if type.isEmpty then none else (signature? rest).map ((type, ·))

/-- A signature behind a type, else one without. -/
def methodSignature? (chars : List Char) : Option (List Char × Signature) :=
  (typedSignature? chars).or ((signature? chars).map (([], ·)))

/-- What follows the word `static`, if that comes first. -/
def afterStatic? (chars : List Char) : Option (List Char) :=
  let (word, rest) := nextWord chars
  if word = "static".toList ∧ rest ≠ [] then some (rest.dropWhile isBlank) else none

def dropEllipses : List Char → List Char
  | '.' :: '.' :: '.' :: rest => dropEllipses rest
  | chars => chars

/-- One parameter: the words before the one with a dollar sign are the type. -/
def tagParameter? (chars : List Char) : Option TagParameter :=
  let declared := chars.takeWhile (· != '=')
  let default :=
    if declared.length = chars.length then none
    else some (String.ofList (trim (chars.drop (declared.length + 1))))
  let parts := words declared
  let type := parts.takeWhile fun part => !part.contains '$'
  (parts.drop type.length).head?.map fun name =>
    ⟨String.ofList (List.intercalate [' '] type),
      String.ofList (dropEllipses (name.dropWhile (· == '&'))), default⟩

def methodTag (isStatic : Bool) (type : List Char) (signature : Signature) : DocTag :=
  { described .method type signature.name signature.rest with
    isStatic := isStatic
    parameters := (splitOn ',' signature.parameters).filterMap tagParameter? }

/-- A method: perhaps `static`, perhaps a type, and a signature. -/
def methodTag? (chars : List Char) : Option DocTag :=
  let chars := chars.dropWhile isBlank
  let asStatic := (afterStatic? chars).bind methodSignature?
  (asStatic.map fun (type, signature) => methodTag true type signature).or
    ((methodSignature? chars).map fun (type, signature) => methodTag false type signature)

/-- The tag of a chunk, by its first word. -/
def tag? (chunk : List Char) : Option DocTag :=
  let (keyword, rest) := nextWord chunk
  match String.ofList keyword with
  | "@param" => variableTag? .parameter rest
  | "@property" => variableTag? .property rest
  | "@property-read" => variableTag? .propertyRead rest
  | "@property-write" => variableTag? .propertyWrite rest
  | "@var" => typeTag? rest
  | "@return" => returnTag? rest
  | "@method" => methodTag? rest
  | _ => none

/-- The comment asks for the documentation of the inherited declaration. -/
def mentionsInherit (content : List Char) : Bool :=
  contains "@inheritdoc".toList (asciiLower content)

/-- Reads a comment. -/
def parse (comment : String) : DocComment :=
  let content := content comment.toList
  let lines := lines content
  ⟨String.ofList (trim (joinLines (textLines lines))), (chunks lines).filterMap tag?,
    mentionsInherit content⟩

def isEmpty (doc : DocComment) : Bool :=
  doc.text = "" && doc.tags.isEmpty

def parameter? (doc : DocComment) (name : String) : Option DocTag :=
  doc.tags.find? fun tag => tag.kind == .parameter && tag.name == name

/-- The type of a variable: the first tag with its name or without a name. -/
def typeOf? (doc : DocComment) (name : String) : Option DocTag :=
  doc.tags.find? fun tag => tag.kind == .variableType && (tag.name == "" || tag.name == name)

def variableTags (doc : DocComment) : List DocTag :=
  doc.tags.filter (·.kind == .variableType)

def returned? (doc : DocComment) : Option DocTag :=
  doc.tags.find? (·.kind == .returned)

def propertyTags (doc : DocComment) : List DocTag :=
  doc.tags.filter (·.kind.isProperty)

def methodTags (doc : DocComment) : List DocTag :=
  doc.tags.filter (·.kind == .method)

end DocComment

end SymbolIndex
