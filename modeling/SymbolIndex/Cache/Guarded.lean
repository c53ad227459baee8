import SymbolIndex.Cache.Basic

/-!
# Guarded stores

A byte store that can be told to refuse its operations by class. A refused operation meets a given
fault and does nothing.
-/

namespace SymbolIndex

/-- The classes of operations that are refused. To flush is to write and to clear is to delete. -/
structure Refusals where
  reads : Bool := false
  writes : Bool := false
  deletes : Bool := false
  deriving Repr, DecidableEq, Inhabited

structure Guarded (σ : Type) where
  inner : σ
  fault : StorageFault
  refusals : Refusals := {}

namespace Guarded

variable {σ : Type}

/-- A change of the inner store, unless it is refused. -/
def change (store : Guarded σ) (refused : Bool) (attempt : σ → Attempt StorageFault σ) :
    Attempt StorageFault (Guarded σ) :=
  if refused then ⟨store, some store.fault⟩
  else (attempt store.inner).map id fun inner => { store with inner := inner }

instance [ByteStore σ] : ByteStore (Guarded σ) where
  read store key :=
    if store.refusals.reads then .error store.fault else ByteStore.read store.inner key
  write store key bytes :=
    store.change store.refusals.writes fun inner => ByteStore.write inner key bytes
  delete store key := store.change store.refusals.deletes fun inner => ByteStore.delete inner key
  flush store := store.change store.refusals.writes ByteStore.flush
  clear store := store.change store.refusals.deletes ByteStore.clear

end Guarded

end SymbolIndex
