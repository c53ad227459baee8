import SymbolIndex.Exchange.Record

/-!
# The saved state

What survives the end of the program besides the tables themselves.
-/

namespace SymbolIndex

open SymbolIndex.Record

/-- Texts in increasing order, each once. -/
def sortedDistinct (texts : List String) : List String :=
  (texts.mergeSort fun left right => decide (left ≤ right)).eraseDups

/-- The documents known at the end of the program, and the second since the epoch it came in. -/
structure SavedState where
  timestamp : UInt64
  knownUris : List String
  deriving Repr, DecidableEq, Inhabited

namespace SavedState

def new (timestamp : UInt64) (uris : List String) : SavedState :=
  ⟨timestamp, sortedDistinct uris⟩

def toDatum (state : SavedState) : Datum :=
  .record
    [("timestamp", .natural state.timestamp.toNat),
      ("known_uris", .list (state.knownUris.map Datum.text))]

def ofDatum? (room : Nat) (datum : Datum) : Option SavedState := do
  let [timestamp, knownUris] ← fields? .compact ["timestamp", "known_uris"] room datum | none
  some ⟨← word64? (← timestamp), ← listOf? (fun _ => text?) (room - 1) (← knownUris)⟩

end SavedState

end SymbolIndex
