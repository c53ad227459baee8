/-!
# Blank characters

The white space of Unicode, and the three ways the library cuts text at it: trimming, splitting
into words, and splitting into lines.
-/

namespace SymbolIndex.Text

/-- The characters of the Unicode property `White_Space`. -/
def isBlank (c : Char) : Bool :=
  let n := c.toNat
  (9 ≤ n && n ≤ 13) || n == 0x20 || n == 0x85 || n == 0xa0 || n == 0x1680 ||
    (0x2000 ≤ n && n ≤ 0x200a) || n == 0x2028 || n == 0x2029 || n == 0x202f || n == 0x205f ||
    n == 0x3000

/-- `chars` without its trailing blanks. -/
def trimEnd (chars : List Char) : List Char :=
  (chars.reverse.dropWhile isBlank).reverse

/-- `chars` without its leading and trailing blanks. -/
def trim (chars : List Char) : List Char :=
  trimEnd (chars.dropWhile isBlank)

/-- The maximal runs of characters that satisfy `keep`. -/
def runs (keep : Char → Bool) : List Char → List (List Char)
  | [] => []
  | c :: rest =>
    if keep c then
      match runs keep rest, rest.head?.any keep with
      | run :: more, true => (c :: run) :: more
      | more, _ => [c] :: more
    else runs keep rest

/-- The words of a text: its runs of characters that are not blank. -/
def words (chars : List Char) : List (List Char) :=
  runs (fun c => !isBlank c) chars

/-- Cuts at every character equal to `mark`; there is one piece more than there are marks. -/
def splitOn (mark : Char) : List Char → List (List Char)
  | [] => [[]]
  | c :: rest =>
    if c = mark then [] :: splitOn mark rest
    else
      match splitOn mark rest with
      | [] => [[c]]
      | piece :: more => (c :: piece) :: more

/-- A line without the carriage return that ends it, if there is one. -/
def dropReturn (line : List Char) : List Char :=
  match line.reverse with
  | '\r' :: front => front.reverse
  | _ => line

/-- The lines of a text. A line ends in a line feed, or in a carriage return and a line feed; a
last line without an end counts when it is not empty, and keeps a carriage return of its own. -/
def lines (chars : List Char) : List (List Char) :=
  let pieces := splitOn '\n' chars
  pieces.dropLast.map dropReturn ++ pieces.getLast?.toList.filter (· ≠ [])

end SymbolIndex.Text
