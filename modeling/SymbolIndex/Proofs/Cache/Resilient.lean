import SymbolIndex.Proofs.ReferenceStore.Failures
import SymbolIndex.Proofs.Workspace.Provenance

/-!
# Byte stores that may refuse changes

A resilient byte store answers every read, and makes each change or leaves everything as it was.
Whichever changes it refuses, it always stands for some contents, which is all that reading from it
needs.
-/

namespace SymbolIndex

open Function

namespace ByteStore

variable {σ : Type} [ByteStore σ]

/-- Reads succeed, and each change is made or leaves the contents as they were. -/
structure Resilient (holds : σ → Contents → Prop) : Prop extends SafeToFail holds where
  delete : ∀ {store contents}, holds store contents → ∀ key,
    holds (ByteStore.delete store key).after (update contents key none) ∨
      holds (ByteStore.delete store key).after contents
  flush : ∀ {store contents}, holds store contents → holds (ByteStore.flush store).after contents
  clear : ∀ {store contents}, holds store contents →
    holds (ByteStore.clear store).after (fun _ => none) ∨
      holds (ByteStore.clear store).after contents

/-- The store stands for some contents. -/
def Answers (holds : σ → Contents → Prop) (store : σ) : Prop :=
  ∃ contents, holds store contents

namespace Resilient

variable {holds : σ → Contents → Prop} (hresilient : Resilient holds) {store : σ}
variable (hanswers : Answers holds store)

include hresilient hanswers

/-- Once it is written, a table is read. -/
theorem readReferences_written {table : ReferenceTable}
    (hwritten : (ByteStore.writeReferences store table).fault? = none)
    (hdecodes : Stored.Decodes table) :
    ByteStore.readReferences (ByteStore.writeReferences store table).after table.uri =
      .ok (some table) := by
  obtain ⟨contents, hholds⟩ := hanswers
  rcases hresilient.write hholds (referencesKey table.uri) (Stored.encode table) with
    ⟨-, hafter⟩ | ⟨fault, hfault, -⟩
  · exact hresilient.readReferences_some hafter (update_self _ _ _) hdecodes
  · rw [writeReferences, writeValue, Attempt.map, hfault] at hwritten
    cases hwritten

theorem answers_write (key : String) (bytes : List UInt8) :
    Answers holds (ByteStore.write store key bytes).after := by
  obtain ⟨contents, hholds⟩ := hanswers
  rcases hresilient.write hholds key bytes with ⟨-, hafter⟩ | ⟨_, -, hafter⟩
  · exact ⟨_, hafter⟩
  · exact ⟨_, hafter⟩

theorem answers_writeAll (entries : List (String × List UInt8)) :
    Answers holds (entries.foldl (fun store entry =>
      (ByteStore.write store entry.1 entry.2).after) store) := by
  induction entries generalizing store with
  | nil => exact hanswers
  | cons entry rest ih => exact ih (hresilient.answers_write hanswers entry.1 entry.2)

theorem answers_delete (key : String) : Answers holds (ByteStore.delete store key).after := by
  obtain ⟨contents, hholds⟩ := hanswers
  rcases hresilient.delete hholds key with hafter | hafter
  · exact ⟨_, hafter⟩
  · exact ⟨_, hafter⟩

theorem answers_deleteTables (uri : String) :
    Answers holds (ByteStore.deleteTables store uri).after := by
  have hfirst := hresilient.answers_delete hanswers (symbolsKey uri)
  rw [ByteStore.deleteTables, Attempt.map, Attempt.andThen]
  split
  · exact hresilient.answers_delete hfirst (referencesKey uri)
  · exact hfirst

theorem answers_flush : Answers holds (ByteStore.flush store).after := by
  obtain ⟨contents, hholds⟩ := hanswers
  exact ⟨contents, hresilient.flush hholds⟩

theorem answers_clear : Answers holds (ByteStore.clear store).after := by
  obtain ⟨contents, hholds⟩ := hanswers
  rcases hresilient.clear hholds with hafter | hafter
  · exact ⟨_, hafter⟩
  · exact ⟨_, hafter⟩

end Resilient

end ByteStore

open ByteStore

namespace Faltering

/-- A faltering store is resilient, as it refuses a change before it is made. -/
theorem resilient {σ : Type} [ByteStore σ] {holds : σ → Contents → Prop}
    (hreliable : Reliable holds) :
    Resilient fun (store : Faltering σ) contents => holds store.inner contents where
  toSafeToFail := safeToFail hreliable.toFaithful
  delete hholds key := Or.inl (hreliable.delete hholds key).2
  flush hholds := (hreliable.flush hholds).2
  clear hholds := Or.inl (hreliable.clear hholds)

end Faltering

end SymbolIndex
