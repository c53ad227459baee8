import SymbolIndex.Proofs.Debouncer
import SymbolIndex.Proofs.KeyedList
import SymbolIndex.Proofs.ReferenceStore.Soundness
import SymbolIndex.Proofs.SymbolStore.Soundness
import SymbolIndex.Tree.Snippet
import SymbolIndex.Workspace.Basic

/-!
# Soundness of workspaces

In every reachable workspace both stores are sound and file documents under the
usual digest, and an edit that was put off is kept once, under the name of its
document, which is open.  No operation depends on the cache for this: it may
fail, lose entries or hold bytes that nobody wrote.
-/

namespace SymbolIndex

namespace Workspace

variable {σ : Type}

structure Sound (workspace : Workspace σ) : Prop where
  symbols : workspace.symbols.Sound
  symbolsDigest : workspace.symbols.hashOf = uriHash
  references : workspace.references.Sound
  referencesDigest : workspace.references.hashOf = uriHash
  editsOnce : (workspace.edits.pending.map (·.1)).Nodup
  editsNamed : ∀ entry ∈ workspace.edits.pending, entry.2.item.uri = entry.1
  editsOpen : ∀ entry ∈ workspace.edits.pending, entry.1 ∈ workspace.opened

theorem sound_new (config : Config) (cache : σ) : (new config cache).Sound where
  symbols := SymbolStore.sound_empty uriHash
  symbolsDigest := rfl
  references := ReferenceStore.sound_new config.fetchWindow uriHash
  referencesDigest := rfl
  editsOnce := List.nodup_nil
  editsNamed := fun _ hmem => absurd hmem List.not_mem_nil
  editsOpen := fun _ hmem => absurd hmem List.not_mem_nil

/-- A document that waits to be read is open. -/
theorem Sound.open_of_pending {workspace : Workspace σ} (hsound : workspace.Sound)
    {entry : String × Delayed Document} (hmem : entry ∈ workspace.edits.pending) :
    entry.2.item.uri ∈ workspace.opened := by
  rw [hsound.editsNamed entry hmem]
  exact hsound.editsOpen entry hmem

/-! ## Parts -/

theorem Sound.withCache {workspace : Workspace σ} (hsound : workspace.Sound) (cache : σ) :
    { workspace with cache := cache }.Sound :=
  { hsound with }

/-- Edits may be taken out of those that wait. -/
theorem Sound.withEdits {workspace : Workspace σ} (hsound : workspace.Sound)
    {edits : Debouncer Document} (hfewer : edits.pending.Sublist workspace.edits.pending) :
    { workspace with edits := edits }.Sound :=
  { hsound with
    editsOnce := (hfewer.map _).nodup hsound.editsOnce
    editsNamed := fun entry hmem => hsound.editsNamed entry (hfewer.subset hmem)
    editsOpen := fun entry hmem => hsound.editsOpen entry (hfewer.subset hmem) }

theorem Sound.addSymbols {workspace : Workspace σ} (hsound : workspace.Sound)
    (table : SymbolTable) :
    { workspace with symbols := workspace.symbols.add table }.Sound :=
  { hsound with
    symbols := hsound.symbols.add table
    symbolsDigest := (SymbolStore.hashOf_add _ _).trans hsound.symbolsDigest }

theorem Sound.addReferences {workspace : Workspace σ} (hsound : workspace.Sound)
    (table : ReferenceTable) :
    { workspace with references := workspace.references.add table }.Sound :=
  { hsound with
    references := hsound.references.add table
    referencesDigest := (ReferenceStore.hashOf_add _ _).trans hsound.referencesDigest }

theorem Sound.addSummary {workspace : Workspace σ} (hsound : workspace.Sound)
    (summary : ReferenceSummary) :
    { workspace with references := workspace.references.addSummary summary }.Sound :=
  { hsound with
    references := hsound.references.addSummary summary
    referencesDigest :=
      (ReferenceStore.hashOf_addSummary _ _).trans hsound.referencesDigest }

theorem isOpen_iff {workspace : Workspace σ} {uri : String} :
    workspace.isOpen uri = true ↔ uri ∈ workspace.opened :=
  List.contains_iff_mem

/-- A document that is marked as open is open, and so are those before. -/
theorem mem_opened_markOpen (workspace : Workspace σ) (uri other : String) :
    other ∈ (workspace.markOpen uri).opened ↔ other ∈ workspace.opened ∨ other = uri := by
  rw [markOpen]
  split
  · rename_i hopen
    have hmem : uri ∈ workspace.opened := List.contains_iff_mem.1 hopen
    constructor
    · exact Or.inl
    · intro hother
      rcases hother with h | rfl
      · exact h
      · exact hmem
  · rw [List.mem_append, List.mem_singleton]

/-- To open a document changes the list of open documents only. -/
theorem markOpen_eq (workspace : Workspace σ) (uri : String) :
    workspace.markOpen uri =
      { workspace with opened := (workspace.markOpen uri).opened } := by
  rw [markOpen]
  split <;> rfl

theorem Sound.markOpen {workspace : Workspace σ} (hsound : workspace.Sound) (uri : String) :
    (workspace.markOpen uri).Sound := by
  have hopen := mem_opened_markOpen workspace uri
  rw [markOpen_eq]
  exact { hsound with
    editsOpen := fun entry hmem => (hopen entry.1).2 (Or.inl (hsound.editsOpen entry hmem)) }

theorem mem_opened_markClosed (workspace : Workspace σ) (uri other : String) :
    other ∈ (workspace.markClosed uri).opened ↔ other ∈ workspace.opened ∧ other ≠ uri := by
  rw [markClosed, List.mem_filter, bne_iff_ne]

/-- A document without an edit that waits may be closed. -/
theorem Sound.markClosed {workspace : Workspace σ} (hsound : workspace.Sound) {uri : String}
    (hfree : ∀ entry ∈ workspace.edits.pending, entry.1 ≠ uri) :
    (workspace.markClosed uri).Sound :=
  { hsound with
    editsOpen := fun entry hmem =>
      (mem_opened_markClosed workspace uri entry.1).2
        ⟨hsound.editsOpen entry hmem, hfree entry hmem⟩ }

/-! ## Reading documents -/

theorem Sound.read {workspace : Workspace σ} (hsound : workspace.Sound) (document : Document) :
    (workspace.read document).1.Sound :=
  hsound.addSymbols (SymbolTable.ofDocument document)

theorem Sound.rebuild {workspace : Workspace σ} (hsound : workspace.Sound)
    (document : Document) : (workspace.rebuild document).Sound :=
  (hsound.read document).addReferences _

theorem Sound.rebuildAll {workspace : Workspace σ} (hsound : workspace.Sound)
    (documents : List Document) : (workspace.rebuildAll documents).Sound := by
  rw [Workspace.rebuildAll]
  induction documents generalizing workspace with
  | nil => exact hsound
  | cons document rest ih => exact ih (hsound.rebuild document)

section

variable {workspace : Workspace σ} (hsound : workspace.Sound) (document : Document)

include hsound

theorem Sound.hash_symbols : (SymbolTable.ofDocument document).hash =
    workspace.symbols.hashOf (SymbolTable.ofDocument document).uri := by
  rw [hsound.symbolsDigest]
  rfl

theorem Sound.hash_references : (workspace.read document).2.hash =
    workspace.references.hashOf (workspace.read document).2.uri := by
  rw [hsound.referencesDigest]
  rfl

/-- Reading a document changes no other one. -/
theorem Sound.symbols_read (uri : String) :
    (workspace.read document).1.symbols.get? uri =
      if uri = document.uri then some (SymbolTable.ofDocument document)
      else workspace.symbols.get? uri :=
  SymbolStore.get?_add hsound.symbols (hsound.hash_symbols document) uri

/-- A document that is read has the references that were read. -/
theorem Sound.references_rebuild (uri : String) :
    (workspace.rebuild document).references.get? uri =
      if uri = document.uri then some (workspace.read document).2
      else workspace.references.get? uri :=
  ReferenceStore.get?_add hsound.references (hsound.hash_references document) uri

/-- A document that is read has the summary of its references. -/
theorem Sound.summary_rebuild (uri : String) :
    (workspace.rebuild document).references.summary? uri =
      if uri = document.uri then some (workspace.read document).2.summary
      else workspace.references.summary? uri :=
  ReferenceStore.summary?_add hsound.references (hsound.hash_references document) uri

end

/-- Reading documents changes the stores only. -/
theorem rebuildAll_eq (workspace : Workspace σ) (documents : List Document) :
    workspace.rebuildAll documents = { workspace with
      symbols := (workspace.rebuildAll documents).symbols
      references := (workspace.rebuildAll documents).references } := by
  induction documents generalizing workspace with
  | nil => rfl
  | cons document rest ih => exact ih (workspace.rebuild document)

@[simp]
theorem cache_rebuildAll (workspace : Workspace σ) (documents : List Document) :
    (workspace.rebuildAll documents).cache = workspace.cache := by
  rw [rebuildAll_eq]

@[simp]
theorem edits_rebuildAll (workspace : Workspace σ) (documents : List Document) :
    (workspace.rebuildAll documents).edits = workspace.edits := by
  rw [rebuildAll_eq]

/-! ## Open documents -/

theorem Sound.openDocument {workspace : Workspace σ} (hsound : workspace.Sound)
    (document : Document) : (workspace.openDocument document).Sound := by
  apply Sound.rebuild
  apply (hsound.markOpen document.uri).withEdits
  rw [markOpen_eq]
  exact List.filter_sublist

theorem Sound.edit {workspace : Workspace σ} (hsound : workspace.Sound)
    (document : Document) : (workspace.edit document).Sound := by
  have hleft := hsound.markOpen document.uri
  have hopen := mem_opened_markOpen workspace document.uri
  rw [Workspace.edit]
  generalize workspace.markOpen document.uri = marked at hleft hopen
  have hfewer : (marked.edits.pending.remove document.uri).Sublist marked.edits.pending :=
    List.filter_sublist
  refine { hleft with editsOnce := ?_, editsNamed := ?_, editsOpen := ?_ }
  · exact Debouncer.nodup_step hleft.editsOnce (.schedule document.uri document)
  · intro entry hmem
    rcases List.mem_append.1 hmem with hold | hnew
    · exact hleft.editsNamed entry (hfewer.subset hold)
    · rw [List.mem_singleton.1 hnew]
  · intro entry hmem
    rcases List.mem_append.1 hmem with hold | hnew
    · exact hleft.editsOpen entry (hfewer.subset hold)
    · rw [List.mem_singleton.1 hnew]
      exact (hopen document.uri).2 (Or.inr rfl)

theorem Sound.flush {workspace : Workspace σ} (hsound : workspace.Sound) (uri : String) :
    (workspace.flush uri).Sound :=
  (hsound.withEdits List.filter_sublist).rebuildAll _

/-- After a flush no edit of the document is put off. -/
theorem edits_flush (workspace : Workspace σ) (uri : String) :
    (workspace.flush uri).edits = workspace.edits.cancel uri :=
  edits_rebuildAll _ _

theorem Sound.flushAll {workspace : Workspace σ} (hsound : workspace.Sound) :
    workspace.flushAll.Sound :=
  (hsound.withEdits (List.nil_sublist _)).rebuildAll _

theorem Sound.advance {workspace : Workspace σ} (hsound : workspace.Sound)
    (duration : Nat) : (workspace.advance duration).Sound :=
  (hsound.withEdits (workspace.edits.pending_advance_sublist duration)).rebuildAll _

section

variable [ByteStore σ]

/-! ## Closed documents -/

theorem Sound.closeReferences {workspace : Workspace σ} (hsound : workspace.Sound)
    (uri : String) : (workspace.closeReferences uri).Sound :=
  { hsound with
    references := hsound.references.close workspace.cache uri
    referencesDigest :=
      (ReferenceStore.hashOf_close _ _ _).trans hsound.referencesDigest }

theorem Sound.close {workspace : Workspace σ} (hsound : workspace.Sound) (uri : String) :
    (workspace.close uri).Sound := by
  have hclosed : ((workspace.flush uri).markClosed uri).Sound := by
    apply (hsound.flush uri).markClosed
    intro entry hmem
    rw [edits_flush] at hmem
    exact (KeyedList.mem_remove_iff.1 hmem).2
  have hleft := hclosed.closeReferences uri
  rw [Workspace.close]
  split
  · exact hleft.withCache _
  · exact hleft

theorem Sound.restore {workspace : Workspace σ} (hsound : workspace.Sound) (uri : String) :
    (workspace.restore uri).1.Sound := by
  rw [Workspace.restore]
  split
  · exact hsound.markOpen uri
  · dsimp only
    split
    · exact hsound
    · rename_i symbols hsymbols
      have hloaded : { workspace with symbols := symbols }.Sound := by
        split at hsymbols
        · cases hsymbols
          exact hsound
        · obtain ⟨table, -, rfl⟩ := Option.map_eq_some_iff.1 hsymbols
          exact hsound.addSymbols table
      split
      · exact hloaded
      · exact (hloaded.addReferences _).markOpen uri

theorem Sound.forget {workspace : Workspace σ} (hsound : workspace.Sound) (uri : String) :
    (workspace.forget uri).Sound := by
  have hcancelled : { workspace with edits := workspace.edits.cancel uri }.Sound :=
    hsound.withEdits List.filter_sublist
  have hfree : ∀ entry ∈ (workspace.edits.cancel uri).2.pending, entry.1 ≠ uri :=
    fun entry hmem => (KeyedList.mem_remove_iff.1 hmem).2
  have hclosed := hcancelled.markClosed hfree
  exact { hclosed with
    symbols := hsound.symbols.remove uri
    symbolsDigest := (SymbolStore.hashOf_remove _ _).trans hsound.symbolsDigest
    references := hsound.references.remove uri
    referencesDigest := (ReferenceStore.hashOf_remove _ _).trans hsound.referencesDigest }

theorem Sound.discover {workspace : Workspace σ} (hsound : workspace.Sound)
    (document : Document) : (workspace.discover document).Sound := by
  rw [Workspace.discover]
  split
  · exact hsound
  · have hread := hsound.read document
    dsimp only
    split
    · exact (hread.addSummary _).withCache _
    · exact (hread.addReferences _).withCache _

/-! ## The end and the start of a run -/

/-- Writes one entry of the cache. -/
def persist (workspace : Workspace σ) (entry : String × List UInt8) : Workspace σ :=
  { workspace with cache := (ByteStore.write workspace.cache entry.1 entry.2).after }

def symbolsEntry (table : SymbolTable) : String × List UInt8 :=
  (ByteStore.symbolsKey table.uri, Stored.encode table)

def referencesEntry (table : ReferenceTable) : String × List UInt8 :=
  (ByteStore.referencesKey table.uri, Stored.encode table)

/-- The entries that hold the tables at hand. -/
def tableEntries (workspace : Workspace σ) : List (String × List UInt8) :=
  workspace.symbols.tables.map symbolsEntry ++
    workspace.references.opened.map referencesEntry

theorem foldl_persist (workspace : Workspace σ) (entries : List (String × List UInt8)) :
    entries.foldl persist workspace =
      { workspace with cache := entries.foldl (fun cache entry =>
          (ByteStore.write cache entry.1 entry.2).after) workspace.cache } := by
  induction entries generalizing workspace with
  | nil => rfl
  | cons entry rest ih => exact ih (workspace.persist entry)

/-- The tables at hand are written entry by entry. -/
theorem foldl_writeTables (workspace : Workspace σ) :
    workspace.references.opened.foldl writeReferences
        (workspace.symbols.tables.foldl writeSymbols workspace) =
      workspace.tableEntries.foldl persist workspace := by
  rw [tableEntries, List.foldl_append, List.foldl_map, List.foldl_map]
  rfl

theorem references_foldl_writeSymbols (workspace : Workspace σ) (tables : List SymbolTable) :
    (tables.foldl writeSymbols workspace).references = workspace.references := by
  induction tables generalizing workspace with
  | nil => rfl
  | cons table rest ih => exact ih (workspace.writeSymbols table)

/-- The end of a run writes the tables that all edits leave, then the state. -/
theorem shutdown_eq (workspace : Workspace σ) (timestamp : UInt64) :
    workspace.shutdown timestamp =
      let last := workspace.flushAll
      let saved := last.tableEntries.foldl persist last
      let written := ByteStore.writeState saved.cache (.new timestamp last.knownUris)
      { last with
        edits := last.edits.stop, cache := (ByteStore.flush written.after).after } := by
  rw [shutdown]
  generalize workspace.flushAll = last
  dsimp only
  rw [references_foldl_writeSymbols, foldl_writeTables, foldl_persist]
  rfl

theorem Sound.shutdown {workspace : Workspace σ} (hsound : workspace.Sound)
    (timestamp : UInt64) : (workspace.shutdown timestamp).Sound := by
  have hstopped :
      { workspace.flushAll with edits := workspace.flushAll.edits.stop }.Sound :=
    hsound.flushAll.withEdits (List.Sublist.refl _)
  rw [shutdown_eq]
  exact hstopped.withCache _

theorem Sound.loadSymbols {workspace : Workspace σ} (hsound : workspace.Sound)
    (uri : String) : (workspace.loadSymbols uri).1.Sound := by
  rw [Workspace.loadSymbols]
  split
  · exact hsound
  · split
    · exact hsound.addSymbols _
    · exact hsound

theorem Sound.loadSummary {workspace : Workspace σ} (hsound : workspace.Sound)
    (uri : String) : (workspace.loadSummary uri).1.Sound := by
  rw [Workspace.loadSummary]
  split
  · exact hsound
  · split
    · exact hsound.addSummary _
    · exact hsound

theorem Sound.loadAll {workspace : Workspace σ} (hsound : workspace.Sound)
    (uris : List String) : (workspace.loadAll uris).1.Sound := by
  induction uris generalizing workspace with
  | nil => exact hsound
  | cons uri rest ih => exact ih ((hsound.loadSymbols uri).loadSummary uri)

theorem Sound.startup {workspace : Workspace σ} (hsound : workspace.Sound) :
    workspace.startup.1.Sound := by
  rw [Workspace.startup]
  split
  · exact hsound.withCache _
  · split
    · exact hsound.loadAll _
    · exact hsound

/-! ## Reachable workspaces -/

/-- The workspaces that the operations lead to, over a cache that may answer
anything and may be changed from outside at any time. -/
inductive Reachable : Workspace σ → Prop
  | new (config : Config) (cache : σ) : Reachable (new config cache)
  | openDocument {workspace : Workspace σ} (document : Document) :
      Reachable workspace → Reachable (workspace.openDocument document)
  | edit {workspace : Workspace σ} (document : Document) :
      Reachable workspace → Reachable (workspace.edit document)
  | flush {workspace : Workspace σ} (uri : String) :
      Reachable workspace → Reachable (workspace.flush uri)
  | flushAll {workspace : Workspace σ} :
      Reachable workspace → Reachable workspace.flushAll
  | advance {workspace : Workspace σ} (duration : Nat) :
      Reachable workspace → Reachable (workspace.advance duration)
  | close {workspace : Workspace σ} (uri : String) :
      Reachable workspace → Reachable (workspace.close uri)
  | restore {workspace : Workspace σ} (uri : String) :
      Reachable workspace → Reachable (workspace.restore uri).1
  | forget {workspace : Workspace σ} (uri : String) :
      Reachable workspace → Reachable (workspace.forget uri)
  | discover {workspace : Workspace σ} (document : Document) :
      Reachable workspace → Reachable (workspace.discover document)
  | shutdown {workspace : Workspace σ} (timestamp : UInt64) :
      Reachable workspace → Reachable (workspace.shutdown timestamp)
  | startup {workspace : Workspace σ} :
      Reachable workspace → Reachable workspace.startup.1
  | tamper {workspace : Workspace σ} (cache : σ) :
      Reachable workspace → Reachable { workspace with cache := cache }

theorem Reachable.sound {workspace : Workspace σ} (hreachable : workspace.Reachable) :
    workspace.Sound := by
  induction hreachable with
  | new config cache => exact sound_new config cache
  | openDocument document _ ih => exact ih.openDocument document
  | edit document _ ih => exact ih.edit document
  | flush uri _ ih => exact ih.flush uri
  | flushAll _ ih => exact ih.flushAll
  | advance duration _ ih => exact ih.advance duration
  | close uri _ ih => exact ih.close uri
  | restore uri _ ih => exact ih.restore uri
  | forget uri _ ih => exact ih.forget uri
  | discover document _ ih => exact ih.discover document
  | shutdown timestamp _ ih => exact ih.shutdown timestamp
  | startup _ ih => exact ih.startup
  | tamper cache _ ih => exact ih.withCache cache

end

/-! ## A document that declares a class and one that uses it -/

def declaringDocument : Document :=
  Snippet.document "a" "<?php class A {}" [Snippet.classDeclaration [] "A" none [] []]

def usingDocument : Document :=
  Snippet.document "b" "<?php new A();" [Snippet.expressionStatement (Snippet.creation "A" [])]

end Workspace

end SymbolIndex
