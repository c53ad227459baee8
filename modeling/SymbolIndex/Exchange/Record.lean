import SymbolIndex.Exchange.Datum

/-!
# Records

The rules by which a record or a named alternative is read from a datum. A record is a map with
its fields in any order and unknown ones between them, or a list of exactly its fields. Reading
counts down the lists and maps that may still be opened.

There are two styles. In the textual one every list and map counts, save those that are skipped. In
the compact one those that are skipped count as well, but not a map that names an alternative; a
field or an alternative may also be given by its number or by the bytes of its name, and a record
of numbers by bytes.
-/

namespace SymbolIndex

inductive Style where
  | textual
  | compact
  deriving DecidableEq, Repr

namespace Record

/-- The text of a datum. In the compact style it may be given as bytes. -/
def text? : Datum → Option String
  | .text value => some value
  | .bytes value => String.fromUTF8? ⟨value.toArray⟩
  | _ => none

/-- A natural number below a limit, in any form of integer. -/
def naturalBelow? (limit : Nat) : Datum → Option Nat
  | .natural value => if value < limit then some value else none
  | .integer value => if 0 ≤ value ∧ value.toNat < limit then some value.toNat else none
  | _ => none

def word32? (datum : Datum) : Option UInt32 :=
  (naturalBelow? UInt32.size datum).map UInt32.ofNat

def word64? (datum : Datum) : Option UInt64 :=
  (naturalBelow? UInt64.size datum).map UInt64.ofNat

/-- The numbers that bytes are. -/
def numbers (bytes : List UInt8) : List Datum :=
  bytes.map fun byte => .natural byte.toNat

/-- The items of a list. Bytes are a list of numbers, and do not count as a list. -/
def items? : Nat → Datum → Option (List Datum)
  | _ + 1, .list items => some items
  | _, .bytes bytes => some (numbers bytes)
  | _, _ => none

/-- The items of a list, each read with the room that is left inside it. -/
def listOf? (item : Nat → Datum → Option α) (room : Nat) (datum : Datum) : Option (List α) := do
  (← items? room datum).mapM (item (room - 1))

/-- A value that may be missing or null. -/
def optional? (value : Datum → Option α) : Option Datum → Option (Option α)
  | none => some none
  | some .null => some none
  | some datum => (value datum).map some

/-- The place among `names` that a key stands for. A key that is no name stands for no place, and
a datum that cannot be a key is refused. -/
def keyPlace? (names : List String) : Datum → Option (Option Nat)
  | .text key => some (names.idxOf? key)
  | .bytes key => some (names.findIdx? fun name => name.toUTF8.toList == key)
  | .natural place => some (if place < names.length then some place else none)
  | .brokenText => some none
  | _ => none

/-- A value under an unknown key can be passed over. -/
def canSkip (style : Style) (room : Nat) (datum : Datum) : Bool :=
  style = .textual || datum.nesting ≤ room

/-- The values of the named fields, in the order of the names. A key may not come twice. -/
def fieldsOfMap? (style : Style) (names : List String) (room : Nat)
    (entries : List (Datum × Datum)) : Option (List (Option Datum)) := do
  let placed ← entries.mapM fun entry => (keyPlace? names entry.1).map ((·, entry.2))
  let known := placed.filterMap fun entry => entry.1.map ((·, entry.2))
  if (known.map (·.1)).eraseDups.length = known.length ∧
      placed.all fun entry => entry.1.isSome || canSkip style room entry.2 then
    some ((List.range names.length).map fun place => known.lookup place)
  else none

/-- The fields of a record; a map may leave some out. Bytes give the fields one number each, and
what is left of them is not looked at. -/
def fields? (style : Style) (names : List String) : Nat → Datum → Option (List (Option Datum))
  | room + 1, .map entries => fieldsOfMap? style names room entries
  | _ + 1, .list items =>
    if items.length = names.length then some (items.map some) else none
  | _, .bytes bytes =>
    if names.length ≤ bytes.length then some ((numbers (bytes.take names.length)).map some)
    else none
  | _, _ => none

/-- The fields of a record in which each has a default; a list may stop early. -/
def fieldsWithDefaults? (names : List String) : Nat → Datum → Option (List (Option Datum))
  | room + 1, .map entries => fieldsOfMap? .textual names room entries
  | _ + 1, .list items =>
    if items.length ≤ names.length then
      some (items.map some ++ List.replicate (names.length - items.length) none)
    else none
  | _, _ => none

/-- The alternative that a datum names. -/
def named? (style : Style) (all : List α) (name : α → String) : Datum → Option α
  | .text key => all.find? (name · == key)
  | .bytes key => all.find? fun value => (name value).toUTF8.toList == key
  | .natural place => if style = .compact then all[place]? else none
  | _ => none

/-- The room inside a map that names an alternative. -/
def roomInside? (style : Style) (room : Nat) : Option Nat :=
  match style, room with
  | .compact, room => some room
  | .textual, room + 1 => some room
  | .textual, 0 => none

/-- An alternative with content: a map from its name to the content. -/
def variant? (style : Style) (names : List String) (room : Nat) (datum : Datum) :
    Option (String × Datum) := do
  let _ ← roomInside? style room
  match datum with
  | .map [(key, content)] => (named? style names id key).map ((·, content))
  | _ => none

/-- An alternative without content: its name, or a map from its name to null. -/
def plainVariant? (style : Style) (all : List α) (name : α → String) (room : Nat) :
    Datum → Option α
  | .map [(key, .null)] => roomInside? style room >>= fun _ => named? style all name key
  | .map _ => none
  | datum => named? style all name datum

end Record

end SymbolIndex
