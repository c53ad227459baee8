/-!
# Numerals

Which texts are whole numbers of 64 bits, and which are decimal numbers.
-/

namespace SymbolIndex.Text

/-- The value of a text of decimal digits. -/
def digitsValue? (digits : List Char) : Option Nat :=
  if digits.isEmpty || !digits.all Char.isDigit then none
  else some (digits.foldl (fun value c => 10 * value + (c.toNat - 48)) 0)

/-- A text without its sign, and whether the sign is a minus. -/
def dropSign : List Char → Bool × List Char
  | '-' :: rest => (true, rest)
  | '+' :: rest => (false, rest)
  | chars => (false, chars)

/-- An optional sign and decimal digits, the value fitting a signed word of 64 bits. -/
def isWholeNumber (text : String) : Bool :=
  match dropSign text.toList with
  | (true, digits) => (digitsValue? digits).any (2 * · ≤ UInt64.size)
  | (false, digits) => (digitsValue? digits).any (2 * · < UInt64.size)

/-- An exponent, or nothing. -/
def isExponent : List Char → Bool
  | [] => true
  | c :: rest => (c == 'e' || c == 'E') && (digitsValue? (dropSign rest).2).isSome

/-- Digits with a point among or beside them, or without one, and an optional exponent. -/
def isUnsignedDecimal (chars : List Char) : Bool :=
  let whole := chars.takeWhile Char.isDigit
  match chars.dropWhile Char.isDigit with
  | '.' :: rest =>
    !(whole.isEmpty && (rest.takeWhile Char.isDigit).isEmpty) &&
      isExponent (rest.dropWhile Char.isDigit)
  | rest => !whole.isEmpty && isExponent rest

/-- A decimal number, or one of the names of what is not finite, with an optional sign. -/
def isDecimal (text : String) : Bool :=
  let body := (dropSign text.toList).2
  isUnsignedDecimal body ||
    ["inf", "infinity", "nan"].any fun word => word.toList == body.map Char.toLower

end SymbolIndex.Text
