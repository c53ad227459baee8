import SymbolIndex.Exchange.Datum
import SymbolIndex.Text.Hex

/-!
# JSON text

Writing is compact, without blanks. Reading follows the grammar strictly: no blank but space, tab
and line ends, no control characters inside quotes, no leading zeros, nothing after the value. A
quoted text with half a surrogate pair is well formed but names no text.
-/

namespace SymbolIndex.Json

open SymbolIndex.Text

/-- The number of lists and maps that may stand around each other where a value is read. -/
def maxNesting : Nat := 127

/-! ### Writing -/

/-- The escape of a character inside quotes. -/
def escape (c : Char) : List Char :=
  if c = '"' then ['\\', '"']
  else if c = '\\' then ['\\', '\\']
  else if c = '\x08' then ['\\', 'b']
  else if c = '\x0c' then ['\\', 'f']
  else if c = '\n' then ['\\', 'n']
  else if c = '\r' then ['\\', 'r']
  else if c = '\t' then ['\\', 't']
  else if c.toNat < 0x20 then ['\\', 'u'] ++ hexPadded 4 c.toNat
  else [c]

def quote (text : String) : List Char :=
  '"' :: text.toList.flatMap escape ++ ['"']

def decimal (value : Nat) : List Char :=
  Nat.toDigits 10 value

mutual

def write : Datum → List Char
  | .null => "null".toList
  | .bool true => "true".toList
  | .bool false => "false".toList
  | .natural value => decimal value
  | .integer (.ofNat value) => decimal value
  | .integer (.negSucc value) => '-' :: decimal (value + 1)
  | .text value => quote value
  | .bytes value =>
    '[' :: List.intercalate [','] (value.map fun byte => decimal byte.toNat) ++ [']']
  | .list items => '[' :: writeItems items ++ [']']
  | .map entries => '\x7b' :: writeEntries entries ++ ['\x7d']
  | .brokenText | .extension | .other => "null".toList

def writeItems : List Datum → List Char
  | [] => []
  | [item] => write item
  | item :: rest => write item ++ ',' :: writeItems rest

def writeEntries : List (Datum × Datum) → List Char
  | [] => []
  | [(key, value)] => write key ++ ':' :: write value
  | (key, value) :: rest => write key ++ ':' :: write value ++ ',' :: writeEntries rest

end

/-- The JSON text of a datum. -/
def print (datum : Datum) : String :=
  String.ofList (write datum)

/-! ### Reading -/

def isBlank (c : Char) : Bool :=
  c == ' ' || c == '\t' || c == '\n' || c == '\r'

def skipBlanks (chars : List Char) : List Char :=
  chars.dropWhile isBlank

/-- What is written inside quotes: a character, or the value of a numeric escape. -/
inductive Piece where
  | char (c : Char)
  | unit (value : Nat)

def simpleEscape? : Char → Option Char
  | '"' => some '"'
  | '\\' => some '\\'
  | '/' => some '/'
  | 'b' => some '\x08'
  | 'f' => some '\x0c'
  | 'n' => some '\n'
  | 'r' => some '\r'
  | 't' => some '\t'
  | _ => none

/-- The pieces up to the closing quote, and what follows it. -/
def readPieces? : List Char → Option (List Piece × List Char)
  | [] => none
  | '"' :: rest => some ([], rest)
  | '\\' :: 'u' :: a :: b :: c :: d :: rest => do
    let value ← hexNat? [a, b, c, d]
    let (pieces, rest) ← readPieces? rest
    some (.unit value :: pieces, rest)
  | '\\' :: c :: rest => do
    let escaped ← simpleEscape? c
    let (pieces, rest) ← readPieces? rest
    some (.char escaped :: pieces, rest)
  | c :: rest => do
    if c = '\\' || c.toNat < 0x20 then none
    else
      let (pieces, rest) ← readPieces? rest
      some (.char c :: pieces, rest)

/-- The text that pieces spell. Two numeric escapes may be a surrogate pair; half a pair spells
nothing. -/
def spell? : List Piece → Option (List Char)
  | [] => some []
  | .char c :: rest => (spell? rest).map (c :: ·)
  | .unit high :: .unit low :: rest =>
    if 0xd800 ≤ high ∧ high ≤ 0xdbff then
      if 0xdc00 ≤ low ∧ low ≤ 0xdfff then
        (spell? rest).map
          (Char.ofNat (0x10000 + (high - 0xd800) * 0x400 + (low - 0xdc00)) :: ·)
      else none
    else if 0xdc00 ≤ high ∧ high ≤ 0xdfff then none
    else (spell? (.unit low :: rest)).map (Char.ofNat high :: ·)
  | .unit value :: rest =>
    if 0xd800 ≤ value ∧ value ≤ 0xdfff then none
    else (spell? rest).map (Char.ofNat value :: ·)

/-- What follows the opening quote. -/
def readText? (chars : List Char) : Option (Datum × List Char) := do
  let (pieces, rest) ← readPieces? chars
  match spell? pieces with
  | some text => some (.text (String.ofList text), rest)
  | none => some (.other, rest)

def digitsToNat (digits : List Char) : Nat :=
  digits.foldl (fun value c => 10 * value + (c.toNat - 48)) 0

/-- Digits without a leading zero, and what follows them. -/
def readDigits? (chars : List Char) : Option (Nat × List Char) :=
  let digits := chars.takeWhile Char.isDigit
  let rest := chars.dropWhile Char.isDigit
  match digits with
  | [] => none
  | '0' :: _ :: _ => none
  | _ => some (digitsToNat digits, rest)

/-- The fraction and the exponent of a number: whether there is one, and what follows. -/
def readTail? (chars : List Char) : Option (Bool × List Char) := do
  let afterDigits (rest : List Char) : Option (List Char) :=
    if (rest.head?.any Char.isDigit) then some (rest.dropWhile Char.isDigit) else none
  let (fraction, rest) ←
    match chars with
    | '.' :: rest => (afterDigits rest).map ((true, ·))
    | rest => some (false, rest)
  match rest with
  | c :: more =>
    if c = 'e' || c = 'E' then
      let digits := match more with
        | '+' :: digits => digits
        | '-' :: digits => digits
        | digits => digits
      (afterDigits digits).map ((true, ·))
    else some (fraction, rest)
  | [] => some (fraction, rest)

def readNumber? (chars : List Char) : Option (Datum × List Char) := do
  match chars with
  | '-' :: rest =>
    let (value, rest) ← readDigits? rest
    let (inexact, rest) ← readTail? rest
    if inexact || value == 0 then some (.other, rest)
    else some (.integer (-(value : Int)), rest)
  | _ =>
    let (value, rest) ← readDigits? chars
    let (inexact, rest) ← readTail? rest
    some (if inexact then .other else .natural value, rest)

def readWord? (word : String) (datum : Datum) (chars : List Char) : Option (Datum × List Char) :=
  (word.toList.isPrefixOf? chars).map ((datum, ·))

mutual

/-- Reads one value. The fuel bounds the number of steps; every second step takes a character. -/
def readValue? : Nat → List Char → Option (Datum × List Char)
  | 0, _ => none
  | fuel + 1, chars =>
    match skipBlanks chars with
    | '"' :: rest => readText? rest
    | '[' :: rest =>
      match skipBlanks rest with
      | ']' :: rest => some (.list [], rest)
      | _ => do
        let (items, rest) ← readItems? fuel rest
        some (.list items, rest)
    | '\x7b' :: rest =>
      match skipBlanks rest with
      | '\x7d' :: rest => some (.map [], rest)
      | _ => do
        let (entries, rest) ← readEntries? fuel rest
        some (.map entries, rest)
    | 'n' :: rest => readWord? "ull" .null rest
    | 't' :: rest => readWord? "rue" (.bool true) rest
    | 'f' :: rest => readWord? "alse" (.bool false) rest
    | rest => readNumber? rest

/-- The items of a list that has some, and what follows its bracket. -/
def readItems? : Nat → List Char → Option (List Datum × List Char)
  | 0, _ => none
  | fuel + 1, chars => do
    let (item, rest) ← readValue? fuel chars
    match skipBlanks rest with
    | ',' :: rest =>
      let (items, rest) ← readItems? fuel rest
      some (item :: items, rest)
    | ']' :: rest => some ([item], rest)
    | _ => none

/-- The entries of a map that has some, and what follows its brace. -/
def readEntries? : Nat → List Char → Option (List (Datum × Datum) × List Char)
  | 0, _ => none
  | fuel + 1, chars => do
    match skipBlanks chars with
    | '"' :: rest =>
      let (key, rest) ← readText? rest
      match skipBlanks rest with
      | ':' :: rest =>
        let (value, rest) ← readValue? fuel rest
        match skipBlanks rest with
        | ',' :: rest =>
          let (entries, rest) ← readEntries? fuel rest
          some ((key, value) :: entries, rest)
        | '\x7d' :: rest => some ([(key, value)], rest)
        | _ => none
      | _ => none
    | _ => none

end

/-- The datum of a JSON text. -/
def parse? (text : String) : Option Datum := do
  let chars := text.toList
  let (datum, rest) ← readValue? (2 * chars.length + 2) chars
  if (skipBlanks rest).isEmpty then some datum else none

end SymbolIndex.Json
