import SymbolIndex.SourceText
import SymbolIndex.Text.Search

/-!
# Laying tokens over a text

A draft is a tree whose tokens are still words. Laying it out finds every word in the text, each
after the one before it. A word that does not occur any more becomes an empty token where the
search stands, as a parser reports a missing token, and the search goes on as if it had not been
asked for.
-/

namespace SymbolIndex

open SymbolIndex.Text

/-- Where the search for words stands: the text from there on, and the bytes before it. -/
structure Layout where
  cursor : Nat
  rest : List Char
  deriving Inhabited

/-- A stretch of bytes. -/
structure Span where
  start : Nat
  length : Nat
  deriving DecidableEq, Repr, Inhabited

namespace Layout

def ofText (text : String) : Layout :=
  ⟨0, text.toList⟩

/-- Finds the next occurrence of a word. -/
def place (layout : Layout) (word : List Char) : Span × Layout :=
  if word.isEmpty then (⟨layout.cursor, 0⟩, layout)
  else
    match before? word layout.rest with
    | none => (⟨layout.cursor, 0⟩, layout)
    | some skipped =>
      let start := layout.cursor + SourceText.byteLength skipped
      let length := SourceText.byteLength word
      (⟨start, length⟩, ⟨start + length, layout.rest.drop (skipped.length + word.length)⟩)

/-- Finds the next occurrence of each of a list of words. -/
def placeAll (layout : Layout) : List (List Char) → List Span × Layout
  | [] => ([], layout)
  | word :: rest =>
    let (span, next) := layout.place word
    let (spans, last) := next.placeAll rest
    (span :: spans, last)

/-- Finds the next occurrence of a word, as a token. -/
def placeToken (layout : Layout) (kind : TokenKind) (word : String) : Token × Layout :=
  let (span, next) := layout.place word.toList
  (⟨kind, UInt32.ofNat span.start, UInt32.ofNat span.length⟩, next)

end Layout

/-- A tree whose tokens need not have a place yet. -/
inductive Draft where
  | phrase (kind : PhraseKind) (children : List Draft)
  | word (kind : TokenKind) (text : String)
  | placed (token : Token)
  deriving Inhabited

namespace Draft

mutual

/-- Places the words of a draft in document order. Tokens with a place do not move the search. -/
def layOut (layout : Layout) : Draft → Tree × Layout
  | phrase kind children =>
    let (trees, last) := layOutAll layout children
    (.phrase kind trees, last)
  | word kind text =>
    let (token, last) := layout.placeToken kind text
    (.token token, last)
  | placed token => (.token token, layout)

def layOutAll (layout : Layout) : List Draft → List Tree × Layout
  | [] => ([], layout)
  | draft :: rest =>
    let (tree, next) := layOut layout draft
    let (trees, last) := layOutAll next rest
    (tree :: trees, last)

end

/-- The tree of a draft over a text. -/
def toTree (draft : Draft) (text : String) : Tree :=
  (draft.layOut (Layout.ofText text)).1

end Draft

end SymbolIndex
