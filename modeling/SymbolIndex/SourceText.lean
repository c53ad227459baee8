import SymbolIndex.Position
import SymbolIndex.Tree.Basic

/-!
# Source text

A text is addressed in two ways: by byte offset in its UTF-8 form, as tokens do, and by line and
character, as positions do. Both maps are one walk over the characters.
-/

namespace SymbolIndex.SourceText

/-- The number of bytes of a text in UTF-8. -/
def byteLength : List Char → Nat
  | [] => 0
  | c :: rest => c.utf8Size + byteLength rest

/-- The rest of the text from a byte offset, if the offset is a boundary between characters. -/
def dropBytes? : Nat → List Char → Option (List Char)
  | 0, chars => some chars
  | _ + 1, [] => none
  | offset + 1, c :: rest =>
    if c.utf8Size ≤ offset + 1 then dropBytes? (offset + 1 - c.utf8Size) rest else none

/-- The first bytes of the text, if they end at a boundary between characters. -/
def takeBytes? : Nat → List Char → Option (List Char)
  | 0, _ => some []
  | _ + 1, [] => none
  | count + 1, c :: rest =>
    if c.utf8Size ≤ count + 1 then (takeBytes? (count + 1 - c.utf8Size) rest).map (c :: ·)
    else none

/-- The text between two byte offsets; empty unless both are boundaries in order. -/
def sliceChars (start stop : Nat) (chars : List Char) : List Char :=
  if start ≤ stop then ((dropBytes? start chars).bind (takeBytes? (stop - start))).getD [] else []

def slice (text : String) (start stop : Nat) : String :=
  String.ofList (sliceChars start stop text.toList)

/-- The position `offset` bytes further on. `position` is where the walk stands and `width` the
number of bytes before it on its line. An offset inside a character counts bytes instead of
characters, and an offset beyond the end is the end. -/
def positionFrom (position : Position) (width : Nat) : Nat → List Char → Position
  | _, [] => position
  | 0, _ :: _ => position
  | offset + 1, c :: rest =>
    if offset + 1 < c.utf8Size then ⟨position.line, width + (offset + 1)⟩
    else if c = '\n' then positionFrom ⟨position.line + 1, 0⟩ 0 offset rest
    else
      positionFrom ⟨position.line, position.character + 1⟩ (width + c.utf8Size)
        (offset + 1 - c.utf8Size) rest

/-- The position of a byte offset. -/
def positionAt (text : String) (offset : Nat) : Position :=
  positionFrom ⟨0, 0⟩ 0 offset text.toList

/-- The number of bytes to a character of the current line; at most the line with its end. -/
def bytesToCharacter : Nat → List Char → Nat
  | 0, _ => 0
  | _ + 1, [] => 0
  | character + 1, c :: rest =>
    c.utf8Size + if c = '\n' then 0 else bytesToCharacter character rest

/-- The number of bytes to a position, counted from the start of a line. -/
def bytesTo : Nat → Nat → List Char → Nat
  | 0, character, chars => bytesToCharacter character chars
  | _ + 1, _, [] => 0
  | line + 1, character, c :: rest =>
    c.utf8Size + if c = '\n' then bytesTo line character rest
      else bytesTo (line + 1) character rest

/-- The byte offset of a position. A character beyond its line is the start of the next line, and
a line beyond the text is the end of the text. -/
def offsetAt (text : String) (position : Position) : Nat :=
  bytesTo position.line position.character text.toList

def tokenText (text : String) (token : Token) : String :=
  slice text token.start token.stop

def tokenRange (text : String) (token : Token) : Range :=
  ⟨positionAt text token.start, positionAt text token.stop⟩

/-- The text from the first to the last token of a tree that is no blank or comment. -/
def treeText (text : String) (tree : Tree) : String :=
  match tree.firstToken?, tree.lastToken? with
  | some first, some last => slice text first.start last.stop
  | _, _ => ""

/-- The range from the first to the last token of a tree that is no blank or comment. -/
def treeRange (text : String) (tree : Tree) : Range :=
  match tree.firstToken?, tree.lastToken? with
  | some first, some last => ⟨positionAt text first.start, positionAt text last.stop⟩
  | _, _ => ⟨⟨0, 0⟩, ⟨0, 0⟩⟩

end SymbolIndex.SourceText
