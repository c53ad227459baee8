import SymbolIndex.Cache.Stored
import SymbolIndex.KeyedList

/-!
# Buckets

The entries whose keys have one digest, stored together as one list of pairs.
-/

namespace SymbolIndex

open SymbolIndex.Record

structure Bucket where
  entries : KeyedList (List UInt8) := []
  deriving Repr, DecidableEq, Inhabited

namespace Bucket

def empty : Bucket := {}

def value? (bucket : Bucket) (key : String) : Option (List UInt8) :=
  bucket.entries.value? key

def put (bucket : Bucket) (key : String) (bytes : List UInt8) : Bucket :=
  ⟨bucket.entries.put key bytes⟩

def remove (bucket : Bucket) (key : String) : Bucket :=
  ⟨bucket.entries.remove key⟩

def entryToDatum (entry : String × List UInt8) : Datum :=
  .list [.text entry.1, .list (entry.2.map fun byte => .natural byte.toNat)]

def toDatum (bucket : Bucket) : Datum :=
  .list (bucket.entries.map entryToDatum)

def byte? (datum : Datum) : Option UInt8 :=
  (naturalBelow? UInt8.size datum).map UInt8.ofNat

def entryOfDatum? (room : Nat) (datum : Datum) : Option (String × List UInt8) := do
  let [key, value] ← items? room datum | none
  some (← text? key, ← listOf? (fun _ => byte?) (room - 1) value)

def ofDatum? (room : Nat) (datum : Datum) : Option Bucket :=
  (listOf? entryOfDatum? room datum).map Bucket.mk

instance : Stored Bucket := ⟨toDatum, ofDatum?⟩

end Bucket

end SymbolIndex
