import SymbolIndex.SourceText

/-!
# Documents

A source file: its name, its text, and the tree a parser made of it.
-/

namespace SymbolIndex

structure Document where
  uri : String
  text : String
  tree : Tree
  deriving Inhabited

namespace Document

def location (document : Document) (range : Range) : Location :=
  ⟨document.uri, range⟩

def tokenText (document : Document) (token : Token) : String :=
  SourceText.tokenText document.text token

def tokenRange (document : Document) (token : Token) : Range :=
  SourceText.tokenRange document.text token

def treeText (document : Document) (tree : Tree) : String :=
  SourceText.treeText document.text tree

def treeRange (document : Document) (tree : Tree) : Range :=
  SourceText.treeRange document.text tree

/-- The range of the whole text. -/
def fullRange (document : Document) : Range :=
  ⟨⟨0, 0⟩, SourceText.positionAt document.text document.text.utf8ByteSize⟩

end Document

end SymbolIndex
