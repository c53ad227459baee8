/-!
# Hexadecimal text

Lower-case hexadecimal numbers and the hexadecimal form of byte sequences.
-/

namespace SymbolIndex.Text

def hexDigit (value : Nat) : Char :=
  "0123456789abcdef".toList.getD value '0'

/-- The value of a hexadecimal digit of either case. -/
def hexValue? (c : Char) : Option Nat :=
  if '0' ≤ c ∧ c ≤ '9' then some (c.toNat - 48)
  else if 'a' ≤ c ∧ c ≤ 'f' then some (c.toNat - 87)
  else if 'A' ≤ c ∧ c ≤ 'F' then some (c.toNat - 55)
  else none

/-- The last `width` hexadecimal digits of a number. -/
def hexPadded : Nat → Nat → List Char
  | 0, _ => []
  | width + 1, value => hexPadded width (value / 16) ++ [hexDigit (value % 16)]

/-- The sixteen digits of a 64-bit word. -/
def hexWord (word : UInt64) : String :=
  String.ofList (hexPadded 16 word.toNat)

/-- The hexadecimal form of a number, without leading zeros. -/
def hexNat (value : Nat) : String :=
  match (hexPadded 16 value).dropWhile (· == '0') with
  | [] => "0"
  | digits => String.ofList digits

/-- Reads digits as a number; no digits are no number. -/
def hexNat? (digits : List Char) : Option Nat :=
  if digits.isEmpty then none
  else digits.foldlM (fun value c => (hexValue? c).map (16 * value + ·)) 0

def hexBytes (bytes : List UInt8) : String :=
  String.ofList (bytes.flatMap fun byte => hexPadded 2 byte.toNat)

def bytesOfHexChars? : List Char → Option (List UInt8)
  | [] => some []
  | high :: low :: rest => do
    let high ← hexValue? high
    let low ← hexValue? low
    let bytes ← bytesOfHexChars? rest
    some (UInt8.ofNat (16 * high + low) :: bytes)
  | [_] => none

/-- The bytes written by `hexBytes`. -/
def bytesOfHex? (text : String) : Option (List UInt8) :=
  bytesOfHexChars? text.toList

end SymbolIndex.Text
