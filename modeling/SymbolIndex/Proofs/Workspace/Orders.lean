import SymbolIndex.Proofs.Reading.Sources
import SymbolIndex.Proofs.Workspace.Freshness

/-!
# The order in which edits are read

All edits that wait are read one after the other, in no particular order.  Each document is read
once, with the symbols that are at hand by then, and what the others declare later does not reach
it.  So the order shows in the types of its references, and in the scopes in which it looks members
up, but in nothing else, and not even there as long as its references have the same types either
way.
-/

namespace SymbolIndex

instance (left right : SymbolSource) (reference : Reference) :
    Decidable (left.TypesAlike right reference) :=
  inferInstanceAs (Decidable (_ = _))

namespace Workspace

variable {σ : Type}

/-- Reads documents, and takes them for all that were put off. -/
def drainedBy (workspace : Workspace σ) (documents : List Document) : Workspace σ :=
  { workspace with edits := workspace.edits.flushAll.2 }.rebuildAll documents

theorem flushAll_eq_drainedBy (workspace : Workspace σ) :
    workspace.flushAll = workspace.drainedBy workspace.edits.flushAll.1 :=
  rfl

/-- A document is read with the symbols of itself and of all that was read before. -/
theorem Sound.references_rebuildAll_of_split {workspace : Workspace σ} (hsound : workspace.Sound)
    {before after : List Document} {document : Document}
    (honce : ((before ++ document :: after).map (·.uri)).Nodup) :
    (workspace.rebuildAll (before ++ document :: after)).references.get? document.uri =
      some (ReferenceTable.ofDocument document (SymbolTable.ofDocument document)
        (.ofStore (workspace.rebuildAll (before ++ [document])).symbols)) := by
  have hbefore := hsound.rebuildAll before
  -- No document that is read later takes the place of this one.
  have hlater : ∀ other ∈ after, other.uri ≠ document.uri := by
    intro other hother heq
    rw [List.map_append, List.map_cons, List.nodup_append, List.nodup_cons] at honce
    exact honce.2.1.1 (heq ▸ List.mem_map_of_mem hother)
  have hsplit : ∀ later, workspace.rebuildAll (before ++ document :: later) =
      ((workspace.rebuildAll before).rebuild document).rebuildAll later :=
    fun later => List.foldl_append
  rw [hsplit, hsplit, (hbefore.rebuild document).references_rebuildAll_of_not_mem hlater,
    hbefore.references_rebuild, if_pos rfl]
  rfl

section

variable {workspace : Workspace σ} (hsound : workspace.Sound) {first second : List Document}
  (honce : (first.map (·.uri)).Nodup) (hperm : first.Perm second)

include hsound honce hperm

/-- The symbols do not depend on the order in which documents are read. -/
theorem Sound.symbols_rebuildAll_of_perm (uri : String) :
    (workspace.rebuildAll first).symbols.get? uri =
      (workspace.rebuildAll second).symbols.get? uri := by
  have honce' := (hperm.map (·.uri)).nodup_iff.1 honce
  by_cases hread : ∃ document ∈ first, document.uri = uri
  · obtain ⟨document, hmem, rfl⟩ := hread
    rw [hsound.symbols_rebuildAll_of_mem honce hmem,
      hsound.symbols_rebuildAll_of_mem honce' (hperm.mem_iff.1 hmem)]
  · simp only [not_exists, not_and] at hread
    rw [hsound.symbols_rebuildAll_of_not_mem hread,
      hsound.symbols_rebuildAll_of_not_mem fun document hmem =>
        hread document (hperm.mem_iff.2 hmem)]

theorem Sound.written_rebuildAll_of_perm (uri : String) :
    ((workspace.rebuildAll first).references.get? uri).map ReferenceTable.written =
      ((workspace.rebuildAll second).references.get? uri).map ReferenceTable.written := by
  have honce' := (hperm.map (·.uri)).nodup_iff.1 honce
  by_cases hread : ∃ document ∈ first, document.uri = uri
  · obtain ⟨document, hmem, rfl⟩ := hread
    obtain ⟨before, after, rfl⟩ := List.append_of_mem hmem
    obtain ⟨before', after', rfl⟩ := List.append_of_mem (hperm.mem_iff.1 hmem)
    rw [hsound.references_rebuildAll_of_split honce, hsound.references_rebuildAll_of_split honce',
      Option.map_some, Option.map_some, ReferenceTable.written_ofDocument]
  · simp only [not_exists, not_and] at hread
    rw [hsound.references_rebuildAll_of_not_mem hread,
      hsound.references_rebuildAll_of_not_mem fun document hmem =>
        hread document (hperm.mem_iff.2 hmem)]

end

/-- In whichever order the edits that wait are read, the symbols of all documents are the same, and
so are the references as far as they are written, and all references of documents without an edit.
Those of a document with an edit are the same altogether if they have the same types from the
symbols that are at hand in either order when the document has been read. -/
theorem drainedBy_perm [ByteStore σ] {workspace : Workspace σ} (hreachable : workspace.Reachable)
    {first second : List Document} (hfirst : first.Perm workspace.edits.flushAll.1)
    (hsecond : second.Perm workspace.edits.flushAll.1) :
    let one := workspace.drainedBy first
    let other := workspace.drainedBy second
    one.cache = other.cache ∧
    (∀ uri, one.symbols.get? uri = other.symbols.get? uri) ∧
    (∀ uri, (one.references.get? uri).map ReferenceTable.written =
      (other.references.get? uri).map ReferenceTable.written) ∧
    (∀ uri ∉ workspace.pendingUris, one.references.get? uri = other.references.get? uri) ∧
    ∀ document before after before' after', first = before ++ document :: after →
      second = before' ++ document :: after' →
      (∀ table ∈ one.references.get? document.uri, ∀ reference ∈ table.references,
        (SymbolSource.ofStore (workspace.drainedBy (before ++ [document])).symbols).TypesAlike
          (.ofStore (workspace.drainedBy (before' ++ [document])).symbols) reference) →
      one.references.get? document.uri = other.references.get? document.uri := by
  have hsound := hreachable.sound
  have hdrained : { workspace with edits := workspace.edits.flushAll.2 }.Sound :=
    hsound.withEdits (List.nil_sublist _)
  have honce : (first.map (·.uri)).Nodup :=
    (hfirst.map (·.uri)).nodup_iff.2 hsound.nodup_flushAll
  have honce' : (second.map (·.uri)).Nodup :=
    (hsecond.map (·.uri)).nodup_iff.2 hsound.nodup_flushAll
  have hperm : first.Perm second := hfirst.trans hsecond.symm
  refine ⟨?_, hdrained.symbols_rebuildAll_of_perm honce hperm,
    hdrained.written_rebuildAll_of_perm honce hperm, ?_, ?_⟩
  · rw [drainedBy, drainedBy, cache_rebuildAll, cache_rebuildAll]
  · intro uri hfree
    have hother := hsound.other_of_flushAll hfree
    rw [drainedBy, drainedBy,
      hdrained.references_rebuildAll_of_not_mem fun document hmem =>
        hother document (hfirst.mem_iff.1 hmem),
      hdrained.references_rebuildAll_of_not_mem fun document hmem =>
        hother document (hsecond.mem_iff.1 hmem)]
  · rintro document before after before' after' rfl rfl halike
    have hone := hdrained.references_rebuildAll_of_split honce
    have hother := hdrained.references_rebuildAll_of_split honce'
    have hsame := ReferenceTable.ofDocument_eq_of_typesAlike (halike _ hone)
    exact hone.trans ((congrArg some hsame).trans hother.symm)

/-- A call and the function that tells its type wait, and each may be read first. -/
theorem drainedBy_perm_functionAndCall :
    let first := [functionDocument, callingDocument]
    let second := [callingDocument, functionDocument]
    functionAndCallWait.Reachable ∧ first.Perm functionAndCallWait.edits.flushAll.1 ∧
      second.Perm functionAndCallWait.edits.flushAll.1 ∧
      ((functionAndCallWait.drainedBy first).references.get? "b").map ReferenceTable.written =
        ((functionAndCallWait.drainedBy second).references.get? "b").map ReferenceTable.written ∧
      (functionAndCallWait.drainedBy first).references.get? "a" =
        (functionAndCallWait.drainedBy second).references.get? "a" := by
  intro first second
  have hfirst : first.Perm functionAndCallWait.edits.flushAll.1 := List.Perm.refl _
  have hsecond : second.Perm functionAndCallWait.edits.flushAll.1 := List.Perm.swap _ _ _
  obtain ⟨-, -, hwritten, -, hsame⟩ :=
    drainedBy_perm reachable_functionAndCallWait hfirst hsecond
  refine ⟨reachable_functionAndCallWait, hfirst, hsecond, hwritten "b", ?_⟩
  exact hsame functionDocument [] [callingDocument] [callingDocument] [] rfl rfl (by decide +kernel)

/-- A call that is read before the function has no type, and its method is looked up nowhere. -/
theorem drainedBy_ne_of_perm :
    functionAndCallWait.Reachable ∧
      [functionDocument, callingDocument].Perm functionAndCallWait.edits.flushAll.1 ∧
      [callingDocument, functionDocument].Perm functionAndCallWait.edits.flushAll.1 ∧
      (functionAndCallWait.drainedBy [functionDocument, callingDocument]).references.get? "b" ≠
        (functionAndCallWait.drainedBy [callingDocument, functionDocument]).references.get? "b" :=
  ⟨reachable_functionAndCallWait, List.Perm.refl _, List.Perm.swap _ _ _, by decide +kernel⟩

end Workspace

end SymbolIndex
