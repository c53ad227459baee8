import SymbolIndex.Symbol.Basic

/-!
# Declared symbols

Two symbols may look the same and still be two declarations. A declared symbol carries its origin:
the table it belongs to and its place there. A symbol made on the way has no origin and is the same
as no other.
-/

namespace SymbolIndex

/-- Where a symbol is declared: the number of its table, and its place there as the path of child
places back to the root. -/
structure Origin where
  table : Nat
  place : List Nat
  deriving DecidableEq, Repr, Inhabited

structure Declared where
  origin : Option Origin
  symbol : Symbol
  deriving Inhabited

namespace Declared

/-- The same declaration, not just an equal one. -/
def same (left right : Declared) : Bool :=
  left.origin.isSome && left.origin == right.origin

def child (owner : Declared) (index : Nat) (symbol : Symbol) : Declared :=
  ⟨owner.origin.map fun origin => { origin with place := index :: origin.place }, symbol⟩

def children (owner : Declared) : List Declared :=
  owner.symbol.children.zipIdx.map fun entry => owner.child entry.2 entry.1

mutual

/-- A symbol of a table and all below it, each before those below it. -/
def preorder (table : Nat) (place : List Nat) : Symbol → List Declared
  | symbol@⟨_, _, _, _, _, _, _, children, _, _⟩ =>
    ⟨some ⟨table, place⟩, symbol⟩ :: preorderAll table place 0 children

def preorderAll (table : Nat) (parent : List Nat) (index : Nat) : List Symbol → List Declared
  | [] => []
  | symbol :: rest =>
    preorder table (index :: parent) symbol ++ preorderAll table parent (index + 1) rest

end

/-- Adds a declaration that is not there yet, and tells whether it was new. -/
def push (collected : List Declared) (declared : Declared) : List Declared × Bool :=
  if collected.any (same · declared) then (collected, false)
  else (collected ++ [declared], true)

/-- Keeps the first occurrence of each declaration. -/
def distinct (declarations : List Declared) : List Declared :=
  declarations.foldl (fun collected declared => (push collected declared).1) []

end Declared

end SymbolIndex
