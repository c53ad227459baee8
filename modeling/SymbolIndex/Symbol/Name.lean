import SymbolIndex.Text.Blank
import SymbolIndex.Text.Casing
import SymbolIndex.Symbol.Kind

/-!
# Symbol names and search keys

A qualified name is written with backslashes. A symbol is filed under its lower-cased name, its
lower-cased short name, and the rest of the short name from each place where a word starts.
-/

namespace SymbolIndex

open SymbolIndex.Text

/-- The last segment of a qualified name. -/
def shortChars (name : List Char) : List Char :=
  (name.reverse.takeWhile (· != '\\')).reverse

/-- What stands before the last backslash, or nothing. -/
def qualifierChars (name : List Char) : List Char :=
  ((name.reverse.dropWhile (· != '\\')).drop 1).reverse

def shortName (name : String) : String :=
  String.ofList (shortChars name.toList)

def namespaceOf (name : String) : String :=
  String.ofList (qualifierChars name.toList)

namespace SearchKey

/-- A character that is not the lower-case form given beside it. -/
def isCapital (letter : Char × Char) : Bool :=
  letter.1 != letter.2

/-- The lower-case rests of a name from the start of each word. Each character comes with its
lower-case form; `previous` is the character before. A word starts after `$` or `_`, unless `_`
follows, and at a capital after a character that is none. -/
def wordStarts (previous : Option (Char × Char)) : List (Char × Char) → List (List Char)
  | [] => []
  | [letter] =>
    if previous.any (fun before => !isCapital before) && isCapital letter then [[letter.2]] else []
  | letter :: next :: rest =>
    if (letter.1 == '$' || letter.1 == '_') && next.1 != '_' then
      (next :: rest).map (·.2) :: wordStarts (some next) rest
    else if previous.any (fun before => !isCapital before) && isCapital letter then
      (letter :: next :: rest).map (·.2) :: wordStarts (some letter) (next :: rest)
    else wordStarts (some letter) (next :: rest)

/-- The keys of a name beside its full one. A name whose lower-case form has another length has
no words. -/
def shortKeys (name : List Char) : List (List Char) :=
  let short := shortChars name
  let lowered := lowerChars short
  if short.length = lowered.length then lowered :: wordStarts none (short.zip lowered)
  else [lowered]

/-- The search keys of a symbol, the full name first and no key twice. A namespace has its full
name only. -/
def keys (kind : SymbolKind) (name : String) : List String :=
  let full := lowerChars name.toList
  if kind = .namespaceMark then [String.ofList full]
  else
    ((full :: (shortKeys name.toList).filter (fun key => !key.isEmpty)).map
      String.ofList).eraseDups

end SearchKey

end SymbolIndex
