import SymbolIndex.Exchange.Datum

/-!
# MessagePack bytes

Writing uses the smallest form of each length and number. Reading takes every form and leaves what
follows the value. How deeply lists and maps may be nested is decided where a value is read from
the datum, since some maps do not count there; the reader of bytes only stops where no value could
be read any more.
-/

namespace SymbolIndex.MessagePack

/-- The number of lists and maps that may stand around each other where a value is read. -/
def maxNesting : Nat := 1023

/-- The number of lists and maps that may stand around each other in the bytes. Maps that name an
alternative do not count where a value is read, and each of them stands directly in a list or map
that does. -/
def maxDepth : Nat := 2 * maxNesting

/-! ### Writing -/

/-- The last `width` bytes of a number, the highest first. -/
def bigEndian : Nat → Nat → List UInt8
  | 0, _ => []
  | width + 1, value => bigEndian width (value / 256) ++ [UInt8.ofNat value]

def writeNatural (value : Nat) : List UInt8 :=
  if value < 0x80 then [UInt8.ofNat value]
  else if value < 0x100 then 0xcc :: bigEndian 1 value
  else if value < 0x10000 then 0xcd :: bigEndian 2 value
  else if value < 0x100000000 then 0xce :: bigEndian 4 value
  else 0xcf :: bigEndian 8 value

/-- The head of a value with a length: a short form for small lengths, then forms of one, two and
four bytes; the form of one byte is missing for lists and maps. -/
def writeLength (short shortLimit : Nat) (one? : Option UInt8) (two four : UInt8)
    (length : Nat) : List UInt8 :=
  if length < shortLimit then [UInt8.ofNat (short + length)]
  else
    match one? with
    | some one =>
      if length < 0x100 then one :: bigEndian 1 length
      else if length < 0x10000 then two :: bigEndian 2 length
      else four :: bigEndian 4 length
    | none =>
      if length < 0x10000 then two :: bigEndian 2 length
      else four :: bigEndian 4 length

def utf8 (text : String) : List UInt8 :=
  text.toUTF8.toList

def writeText (text : String) : List UInt8 :=
  let bytes := utf8 text
  writeLength 0xa0 32 (some 0xd9) 0xda 0xdb bytes.length ++ bytes

mutual

def write : Datum → List UInt8
  | .null => [0xc0]
  | .bool false => [0xc2]
  | .bool true => [0xc3]
  | .natural value => writeNatural value
  | .integer (.ofNat value) => writeNatural value
  | .integer (.negSucc value) => 0xd3 :: bigEndian 8 (UInt64.size - 1 - value)
  | .text value => writeText value
  | .bytes value => writeLength 0 0 (some 0xc4) 0xc5 0xc6 value.length ++ value
  | .list items => writeLength 0x90 16 none 0xdc 0xdd items.length ++ writeItems items
  | .map entries => writeLength 0x80 16 none 0xde 0xdf entries.length ++ writeEntries entries
  | .brokenText | .extension | .other => [0xc0]

def writeItems : List Datum → List UInt8
  | [] => []
  | item :: rest => write item ++ writeItems rest

def writeEntries : List (Datum × Datum) → List UInt8
  | [] => []
  | (key, value) :: rest => write key ++ write value ++ writeEntries rest

end

/-! ### Reading -/

/-- The first `count` bytes and the rest, if there are as many. -/
def takeBytes? (count : Nat) (bytes : List UInt8) : Option (List UInt8 × List UInt8) :=
  let taken := bytes.take count
  if taken.length = count then some (taken, bytes.drop count) else none

/-- The number that bytes give, the highest first. -/
def ofBigEndian (bytes : List UInt8) : Nat :=
  bytes.foldl (fun value byte => 256 * value + byte.toNat) 0

def readWord? (width : Nat) (bytes : List UInt8) : Option (Nat × List UInt8) := do
  let (word, rest) ← takeBytes? width bytes
  some (ofBigEndian word, rest)

def readNatural? (width : Nat) (bytes : List UInt8) : Option (Datum × List UInt8) := do
  let (value, rest) ← readWord? width bytes
  some (.natural value, rest)

/-- A number in two's complement. -/
def readInteger? (width : Nat) (bytes : List UInt8) : Option (Datum × List UInt8) := do
  let (value, rest) ← readWord? width bytes
  let limit := 1 <<< (8 * width)
  some (.integer (if 2 * value < limit then value else (value : Int) - limit), rest)

def readBytes? (length : Nat) (bytes : List UInt8) : Option (Datum × List UInt8) := do
  let (taken, rest) ← takeBytes? length bytes
  some (.bytes taken, rest)

/-- A text, if the bytes are UTF-8. -/
def readText? (length : Nat) (bytes : List UInt8) : Option (Datum × List UInt8) := do
  let (taken, rest) ← takeBytes? length bytes
  match String.fromUTF8? ⟨taken.toArray⟩ with
  | some text => some (.text text, rest)
  | none => some (.brokenText, rest)

/-- A fraction, which is skipped. -/
def readFraction? (width : Nat) (bytes : List UInt8) : Option (Datum × List UInt8) := do
  let (_, rest) ← takeBytes? width bytes
  some (.other, rest)

/-- The tag of an extension and its bytes, which are skipped. -/
def readExtension? (length : Nat) (bytes : List UInt8) : Option (Datum × List UInt8) := do
  let (_, rest) ← takeBytes? (length + 1) bytes
  some (.extension, rest)

/-- Reads a length of `width` bytes and then what has that length. -/
def measured? (width : Nat) (read : Nat → List UInt8 → Option (Datum × List UInt8))
    (bytes : List UInt8) : Option (Datum × List UInt8) := do
  let (length, rest) ← readWord? width bytes
  read length rest

mutual

/-- Reads one value with at most `room` lists and maps around each other. -/
def readValue? : Nat → Nat → List UInt8 → Option (Datum × List UInt8)
  | 0, _, _ => none
  | _ + 1, _, [] => none
  | fuel + 1, room, head :: rest =>
    let mark := head.toNat
    let list (length : Nat) (rest : List UInt8) : Option (Datum × List UInt8) :=
      match room with
      | 0 => none
      | inner + 1 => (readItems? fuel inner length rest).map fun (items, rest) =>
        (.list items, rest)
    let map (length : Nat) (rest : List UInt8) : Option (Datum × List UInt8) :=
      match room with
      | 0 => none
      | inner + 1 => (readEntries? fuel inner length rest).map fun (entries, rest) =>
        (.map entries, rest)
    if mark < 0x80 then some (.natural mark, rest)
    else if mark < 0x90 then map (mark - 0x80) rest
    else if mark < 0xa0 then list (mark - 0x90) rest
    else if mark < 0xc0 then readText? (mark - 0xa0) rest
    else if 0xe0 ≤ mark then some (.integer ((mark : Int) - 256), rest)
    else
      match mark with
      | 0xc0 => some (.null, rest)
      | 0xc2 => some (.bool false, rest)
      | 0xc3 => some (.bool true, rest)
      | 0xc4 => measured? 1 readBytes? rest
      | 0xc5 => measured? 2 readBytes? rest
      | 0xc6 => measured? 4 readBytes? rest
      | 0xc7 => measured? 1 readExtension? rest
      | 0xc8 => measured? 2 readExtension? rest
      | 0xc9 => measured? 4 readExtension? rest
      | 0xca => readFraction? 4 rest
      | 0xcb => readFraction? 8 rest
      | 0xcc => readNatural? 1 rest
      | 0xcd => readNatural? 2 rest
      | 0xce => readNatural? 4 rest
      | 0xcf => readNatural? 8 rest
      | 0xd0 => readInteger? 1 rest
      | 0xd1 => readInteger? 2 rest
      | 0xd2 => readInteger? 4 rest
      | 0xd3 => readInteger? 8 rest
      | 0xd4 => readExtension? 1 rest
      | 0xd5 => readExtension? 2 rest
      | 0xd6 => readExtension? 4 rest
      | 0xd7 => readExtension? 8 rest
      | 0xd8 => readExtension? 16 rest
      | 0xd9 => measured? 1 readText? rest
      | 0xda => measured? 2 readText? rest
      | 0xdb => measured? 4 readText? rest
      | 0xdc => measured? 2 list rest
      | 0xdd => measured? 4 list rest
      | 0xde => measured? 2 map rest
      | 0xdf => measured? 4 map rest
      | _ => none

def readItems? : Nat → Nat → Nat → List UInt8 → Option (List Datum × List UInt8)
  | 0, _, _, _ => none
  | _ + 1, _, 0, bytes => some ([], bytes)
  | fuel + 1, room, count + 1, bytes => do
    let (item, rest) ← readValue? fuel room bytes
    let (items, rest) ← readItems? fuel room count rest
    some (item :: items, rest)

def readEntries? : Nat → Nat → Nat → List UInt8 → Option (List (Datum × Datum) × List UInt8)
  | 0, _, _, _ => none
  | _ + 1, _, 0, bytes => some ([], bytes)
  | fuel + 1, room, count + 1, bytes => do
    let (key, rest) ← readValue? fuel room bytes
    let (value, rest) ← readValue? fuel room rest
    let (entries, rest) ← readEntries? fuel room count rest
    some ((key, value) :: entries, rest)

end

/-- The datum at the start of a sequence of bytes. -/
def parse? (bytes : List UInt8) : Option Datum :=
  (readValue? (2 * bytes.length + 2) maxDepth bytes).map (·.1)

end SymbolIndex.MessagePack
