/-!
# Searching text

Where a piece occurs in a text.
-/

namespace SymbolIndex.Text

/-- The characters before the leftmost occurrence of `piece`, if there is one. -/
def before? (piece : List Char) : List Char → Option (List Char)
  | [] => if piece.isEmpty then some [] else none
  | c :: rest =>
    if piece.isPrefixOf (c :: rest) then some []
    else (before? piece rest).map (c :: ·)

/-- Some part of the text is `piece`. -/
def contains (piece chars : List Char) : Bool :=
  (before? piece chars).isSome

end SymbolIndex.Text
