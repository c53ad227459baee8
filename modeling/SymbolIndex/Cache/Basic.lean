import SymbolIndex.Fault

/-!
# Byte stores

Storage of bytes under keys, where the tables of closed documents wait. Every operation may fail.
A read changes nothing; a change answers with the store it leaves behind, whether it failed or
not.
-/

namespace SymbolIndex

/-- The end of a change: what it leaves behind and the fault it met, if any. -/
structure Attempt (ε σ : Type) where
  after : σ
  fault? : Option ε := none
  deriving Repr, DecidableEq

namespace Attempt

variable {ε ε' σ τ : Type}

def succeeded (attempt : Attempt ε σ) : Bool :=
  attempt.fault?.isNone

/-- The same end, seen as a change of something else. -/
def map (fault : ε → ε') (after : σ → τ) (attempt : Attempt ε σ) : Attempt ε' τ :=
  ⟨after attempt.after, attempt.fault?.map fault⟩

/-- A second change that is made when the first did not fail. -/
def andThen (attempt : Attempt ε σ) (next : σ → Attempt ε σ) : Attempt ε σ :=
  match attempt.fault? with
  | none => next attempt.after
  | some _ => attempt

end Attempt

/-- Storage of bytes under keys. A key without an entry reads as `none`. -/
class ByteStore (σ : Type) where
  read : σ → String → Except StorageFault (Option (List UInt8))
  write : σ → String → List UInt8 → Attempt StorageFault σ
  delete : σ → String → Attempt StorageFault σ
  /-- Brings buffered changes to the medium. -/
  flush : σ → Attempt StorageFault σ
  /-- Drops every entry. -/
  clear : σ → Attempt StorageFault σ

end SymbolIndex
