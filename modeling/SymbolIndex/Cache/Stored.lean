import SymbolIndex.Cache.Basic
import SymbolIndex.Exchange.Forms
import SymbolIndex.Exchange.MessagePack
import SymbolIndex.SavedState

/-!
# Stored values

Tables and the saved state as entries of a byte store. An entry that is no form of the value that
is asked for is a fault, other than a missing one.
-/

namespace SymbolIndex

/-- A type whose values have a stored form. -/
class Stored (α : Type) where
  toDatum : α → Datum
  ofDatum? : Nat → Datum → Option α

instance : Stored SymbolTable := ⟨SymbolTable.toDatum, SymbolTable.ofDatum?⟩

instance : Stored ReferenceTable := ⟨ReferenceTable.toDatum, ReferenceTable.ofDatum?⟩

instance : Stored SavedState := ⟨SavedState.toDatum, SavedState.ofDatum?⟩

namespace Stored

variable {α : Type} [Stored α]

def encode (value : α) : List UInt8 :=
  MessagePack.write (toDatum value)

/-- The value at the start of a sequence of bytes. -/
def decode? (bytes : List UInt8) : Option α :=
  MessagePack.parse? bytes >>= ofDatum? MessagePack.maxNesting

end Stored

namespace ByteStore

variable {σ : Type} [ByteStore σ]

/-- The value under a key. -/
def readValue {α : Type} [Stored α] (store : σ) (key : String) : Except EngineFault (Option α) :=
  match ByteStore.read store key with
  | .error fault => .error fault.toEngine
  | .ok none => .ok none
  | .ok (some bytes) =>
    match Stored.decode? bytes with
    | some value => .ok (some value)
    | none => .error (.decoding "not the stored form of the value")

def writeValue {α : Type} [Stored α] (store : σ) (key : String) (value : α) :
    Attempt EngineFault σ :=
  (ByteStore.write store key (Stored.encode value)).map StorageFault.toEngine id

def symbolsKey (uri : String) : String :=
  "symbols/" ++ uri

def referencesKey (uri : String) : String :=
  "references/" ++ uri

def stateKey : String :=
  "state"

def readSymbols (store : σ) (uri : String) : Except EngineFault (Option SymbolTable) :=
  readValue store (symbolsKey uri)

def writeSymbols (store : σ) (table : SymbolTable) : Attempt EngineFault σ :=
  writeValue store (symbolsKey table.uri) table

def readReferences (store : σ) (uri : String) : Except EngineFault (Option ReferenceTable) :=
  readValue store (referencesKey uri)

def writeReferences (store : σ) (table : ReferenceTable) : Attempt EngineFault σ :=
  writeValue store (referencesKey table.uri) table

def readState (store : σ) : Except EngineFault (Option SavedState) :=
  readValue store stateKey

def writeState (store : σ) (state : SavedState) : Attempt EngineFault σ :=
  writeValue store stateKey state

/-- Drops both tables of a document, the second only when the first could be dropped. -/
def deleteTables (store : σ) (uri : String) : Attempt EngineFault σ :=
  ((ByteStore.delete store (symbolsKey uri)).andThen
    (ByteStore.delete · (referencesKey uri))).map StorageFault.toEngine id

end ByteStore

end SymbolIndex
