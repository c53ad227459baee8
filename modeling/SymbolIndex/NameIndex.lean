import SymbolIndex.Text.Casing

/-!
# Index by name

Items are filed under keys. The keys are kept in increasing order, so that all keys with a given
beginning stand together; under a key the items keep the order in which they were added.
-/

namespace SymbolIndex

open SymbolIndex.Text

structure NameIndex (α : Type) where
  entries : List (String × List α) := []

namespace NameIndex

variable {α : Type}

instance : Inhabited (NameIndex α) := ⟨{}⟩

def empty : NameIndex α := {}

/-- Files an item under a key, at the end of what is there. -/
def insertInto (key : String) (item : α) : List (String × List α) → List (String × List α)
  | [] => [(key, [item])]
  | entry :: rest =>
    if key < entry.1 then (key, [item]) :: entry :: rest
    else if key = entry.1 then (key, entry.2 ++ [item]) :: rest
    else entry :: insertInto key item rest

/-- Takes the items for which `same` holds from a key, and the key too when nothing is left. -/
def eraseFrom (key : String) (same : α → Bool) : List (String × List α) → List (String × List α)
  | [] => []
  | entry :: rest =>
    if key = entry.1 then
      match entry.2.filter fun item => !same item with
      | [] => rest
      | kept => (key, kept) :: rest
    else entry :: eraseFrom key same rest

/-- Files an item under each of its keys. -/
def add (index : NameIndex α) (keys : List String) (item : α) : NameIndex α :=
  ⟨keys.foldl (fun entries key => insertInto key item entries) index.entries⟩

/-- Files many items, each under its keys. -/
def addAll (index : NameIndex α) (keysOf : α → List String) (items : List α) : NameIndex α :=
  items.foldl (fun index item => index.add (keysOf item) item) index

/-- Takes the items for which `same` holds from each of the keys. -/
def remove (index : NameIndex α) (keys : List String) (same : α → Bool) : NameIndex α :=
  ⟨keys.foldl (fun entries key => eraseFrom key same entries) index.entries⟩

def keys (index : NameIndex α) : List String :=
  index.entries.map (·.1)

/-- The number of keys. -/
def size (index : NameIndex α) : Nat :=
  index.entries.length

/-- The items under the lower-case form of a text. -/
def find (index : NameIndex α) (text : String) : List α :=
  let key := lower text
  (index.entries.lookup key).getD []

/-- The items under the keys that begin with the lower-case form of a text. -/
def startingWith (index : NameIndex α) (text : String) : List α :=
  let start := lower text
  ((index.entries.dropWhile fun entry => decide (entry.1 < start)).takeWhile fun entry =>
    start.toList.isPrefixOf entry.1.toList).flatMap (·.2)

end NameIndex

end SymbolIndex
