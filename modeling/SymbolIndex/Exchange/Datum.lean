import SymbolIndex.Text.Blank

/-!
# Data for storage and exchange

Values are stored and exchanged as data of a small common shape, which is written either as JSON
text or as MessagePack bytes. `brokenText` stands for a text that is not UTF-8, `extension` for
bytes with a tag of their own, and `other` for whatever else no value of the library has a form of:
a fraction, or a quoted text whose escapes name no characters.
-/

namespace SymbolIndex

inductive Datum where
  | null
  | bool (value : Bool)
  | natural (value : Nat)
  | integer (value : Int)
  | text (value : String)
  | brokenText
  | bytes (value : List UInt8)
  | list (items : List Datum)
  | map (entries : List (Datum × Datum))
  | extension
  | other
  deriving Repr, Inhabited

namespace Datum

/-- A map from names to data, in the order given. -/
def record (fields : List (String × Datum)) : Datum :=
  .map (fields.map fun field => (.text field.1, field.2))

/-- The text, or null. -/
def optionalText : Option String → Datum
  | some value => .text value
  | none => .null

mutual

/-- The number of lists, maps and extensions around each other. -/
def nesting : Datum → Nat
  | list items => 1 + nestingAll items
  | map entries => 1 + nestingEntries entries
  | extension => 1
  | _ => 0

def nestingAll : List Datum → Nat
  | [] => 0
  | datum :: rest => max (nesting datum) (nestingAll rest)

def nestingEntries : List (Datum × Datum) → Nat
  | [] => 0
  | (key, value) :: rest => max (max (nesting key) (nesting value)) (nestingEntries rest)

end

end Datum

end SymbolIndex
