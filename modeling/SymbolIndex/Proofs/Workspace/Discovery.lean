import SymbolIndex.Proofs.Workspace.Operations

/-!
# Discovery over a cache that may refuse changes

Discovering a document puts its summary into the index and its references where they are looked for:
in the cache, or in memory if the cache refuses them. A table that is held open comes before the one
in the cache, however. This matters only for documents that are not open and yet have their
references in memory, and such are left by changes of the cache that were refused, or by an entry of
the cache that holds the table of another document.
-/

namespace SymbolIndex

open ByteStore
open SymbolIndex.Text

namespace Workspace

variable {σ : Type}

/-! ## References that are held open for closed documents -/

/-- The references of a document are held open only while the document is open. -/
def TidyAt (workspace : Workspace σ) (uri : String) : Prop :=
  ∀ table, workspace.references.get? uri = some table → uri ∈ workspace.opened

section

variable {workspace : Workspace σ} {uri : String}

theorem TidyAt.markOpen (htidy : workspace.TidyAt uri) (other : String) :
    (workspace.markOpen other).TidyAt uri := by
  have hopened := mem_opened_markOpen workspace other uri
  rw [markOpen_eq]
  intro table hfound
  exact hopened.2 (Or.inl (htidy table hfound))

/-- An open document may be read again. -/
theorem TidyAt.rebuild (htidy : workspace.TidyAt uri) (hsound : workspace.Sound)
    {document : Document} (hopen : document.uri ∈ workspace.opened) :
    (workspace.rebuild document).TidyAt uri := by
  intro table hfound
  rw [hsound.references_rebuild] at hfound
  by_cases heq : uri = document.uri
  · rw [heq]
    exact hopen
  · rw [if_neg heq] at hfound
    exact htidy table hfound

theorem TidyAt.rebuildAll (htidy : workspace.TidyAt uri) (hsound : workspace.Sound)
    {documents : List Document}
    (hopen : ∀ document ∈ documents, document.uri ∈ workspace.opened) :
    (workspace.rebuildAll documents).TidyAt uri := by
  induction documents generalizing workspace with
  | nil => exact htidy
  | cons document rest ih =>
    obtain ⟨hfirst, hrest⟩ := List.forall_mem_cons.1 hopen
    exact ih (htidy.rebuild hsound hfirst) (hsound.rebuild document) hrest

/-- Edits are of open documents. -/
theorem TidyAt.readEdits (htidy : workspace.TidyAt uri) (hsound : workspace.Sound)
    {edits : Debouncer Document}
    (hfewer : edits.pending.Sublist workspace.edits.pending) {documents : List Document}
    (hwaiting : ∀ document ∈ documents,
      ∃ entry ∈ workspace.edits.pending, entry.2.item = document) :
    ({ workspace with edits := edits }.rebuildAll documents).TidyAt uri := by
  have hsame : { workspace with edits := edits }.TidyAt uri := htidy
  apply hsame.rebuildAll (hsound.withEdits hfewer)
  intro document hmem
  obtain ⟨entry, hentry, rfl⟩ := hwaiting document hmem
  exact hsound.open_of_pending hentry

theorem TidyAt.flush (htidy : workspace.TidyAt uri) (hsound : workspace.Sound)
    (other : String) : (workspace.flush other).TidyAt uri := by
  apply htidy.readEdits hsound List.filter_sublist
  intro document hmem
  obtain ⟨entry, hentry, -, hitem⟩ := Debouncer.mem_pending_of_flush hmem
  exact ⟨entry, hentry, hitem⟩

theorem TidyAt.flushAll (htidy : workspace.TidyAt uri) (hsound : workspace.Sound) :
    workspace.flushAll.TidyAt uri :=
  htidy.readEdits hsound (List.nil_sublist _)
    fun _ hmem => Debouncer.mem_pending_of_flushAll hmem

theorem TidyAt.advance (htidy : workspace.TidyAt uri) (hsound : workspace.Sound)
    (duration : Nat) : (workspace.advance duration).TidyAt uri :=
  htidy.readEdits hsound (workspace.edits.pending_advance_sublist duration)
    fun _ hmem => Debouncer.mem_pending_of_advance hmem

theorem TidyAt.openDocument (htidy : workspace.TidyAt uri) (hsound : workspace.Sound)
    (document : Document) : (workspace.openDocument document).TidyAt uri := by
  have hopen := (mem_opened_markOpen workspace document.uri document.uri).2 (Or.inr rfl)
  have hmarked := htidy.markOpen document.uri
  have hsoundMarked := hsound.markOpen document.uri
  rw [Workspace.openDocument]
  generalize workspace.markOpen document.uri = marked at *
  have hcancelled : { marked with edits := marked.edits.cancel document.uri }.TidyAt uri := hmarked
  exact hcancelled.rebuild (hsoundMarked.withEdits List.filter_sublist) hopen

theorem TidyAt.forget [ByteStore σ] (htidy : workspace.TidyAt uri) (hsound : workspace.Sound)
    (other : String) : (workspace.forget other).TidyAt uri := by
  intro table hfound
  have hstays := (ReferenceStore.get?_remove hsound.references other uri).symm.trans hfound
  by_cases heq : uri = other
  · rw [if_pos heq] at hstays
    cases hstays
  · rw [if_neg heq] at hstays
    exact (mem_opened_markClosed workspace other uri).2 ⟨htidy table hstays, heq⟩

end

/-! ### What leaves references open -/

section

variable [ByteStore σ]

/-- The documents whose references an operation leaves open although the documents are not: those
that the cache refuses, and that of which the cache holds a table under another name. -/
def strandedBy (workspace : Workspace σ) : Operation → List String
  | .act (.close uri) =>
    if ((workspace.flush uri).references.close workspace.cache uri).outcome.isOk then [] else [uri]
  | .act (.discover document) =>
    if workspace.isOpen document.uri ||
        (ByteStore.writeReferences workspace.cache (workspace.read document).2).succeeded then []
    else [document.uri]
  | .act (.restore uri) =>
    if workspace.references.isOpen uri then []
    else ((workspace.cachedReferences? uri).toList.map (·.uri)).filter (· != uri)
  | _ => []

/-- The documents whose references some operation of a run has left so. -/
def strandedIn (workspace : Workspace σ) : List Operation → List String
  | [] => []
  | operation :: rest => workspace.strandedBy operation ++ (workspace.operate operation).strandedIn rest

variable {workspace : Workspace σ} {uri : String}

/-- Closing a document leaves its references open only if the cache refuses them. -/
theorem TidyAt.close (htidy : workspace.TidyAt uri) (hsound : workspace.Sound) {other : String}
    (hkept : uri ∉ workspace.strandedBy (.act (.close other))) :
    (workspace.close other).TidyAt uri := by
  have hflushed := htidy.flush hsound other
  have hcache : (workspace.flush other).cache = workspace.cache := cache_rebuildAll _ _
  have hclosed : (((workspace.flush other).markClosed other).closeReferences other).TidyAt uri := by
    intro table hfound
    have hstays : ((workspace.flush other).references.close workspace.cache other).store.get? uri =
        some table := by
      rw [← hcache]
      exact hfound
    rw [ReferenceStore.get?_close (hsound.flush other).references] at hstays
    split at hstays
    · cases hstays
    · rename_i hother
      have hne : uri ≠ other := by
        rintro rfl
        have hstranded : uri ∈ workspace.strandedBy (.act (.close uri)) := by
          rw [strandedBy, if_neg fun hdone => hother ⟨rfl, hdone⟩]
          exact List.mem_cons_self
        exact hkept hstranded
      exact (mem_opened_markClosed _ other uri).2 ⟨hflushed table hstays, hne⟩
  rw [Workspace.close]
  split
  · exact hclosed
  · exact hclosed

/-- Restoring a document leaves nothing open. -/
theorem TidyAt.restore (htidy : workspace.TidyAt uri) (hsound : workspace.Sound) {other : String}
    (hkept : uri ∉ workspace.strandedBy (.act (.restore other))) :
    (workspace.restore other).1.TidyAt uri := by
  rcases restore_cases workspace other with
    ⟨-, hrestore⟩ | ⟨-, -, hrestore⟩ | ⟨hclosed, symbols, table, -, hcached, hrestore⟩
  · rw [hrestore]
    exact htidy.markOpen other
  · rw [hrestore]
    exact htidy
  · rw [hrestore, markOpen_eq]
    have hopened := mem_opened_markOpen { workspace with
      symbols := symbols, references := workspace.references.add table } other uri
    intro found hfound
    by_cases heq : uri = other
    · exact hopened.2 (Or.inr heq)
    · have hne : uri ≠ table.uri := by
        rintro rfl
        have hstranded : table.uri ∈ workspace.strandedBy (.act (.restore other)) := by
          simp [strandedBy, hclosed, hcached, heq]
        exact hkept hstranded
      have hbefore := (ReferenceStore.get?_add_of_ne hsound.references hne).symm.trans hfound
      exact hopened.2 (Or.inl (htidy found hbefore))

/-- Discovering a document leaves nothing open. -/
theorem TidyAt.discover (htidy : workspace.TidyAt uri) (hsound : workspace.Sound)
    {document : Document} (hkept : uri ∉ workspace.strandedBy (.act (.discover document))) :
    (workspace.discover document).TidyAt uri := by
  by_cases hopen : document.uri ∈ workspace.opened
  · rw [discover_of_open hopen]
    exact htidy
  · by_cases hwritten : (ByteStore.writeReferences workspace.cache
        (workspace.read document).2).fault? = none
    · rw [discover_of_closed hopen hwritten]
      intro table hfound
      exact htidy table ((ReferenceStore.get?_addSummary _ _ uri).symm.trans hfound)
    · rw [discover_of_refused hopen hwritten]
      have hne : uri ≠ document.uri := by
        rintro rfl
        have hstranded : document.uri ∈ workspace.strandedBy (.act (.discover document)) := by
          simp [strandedBy, isOpen_iff, hopen, Attempt.succeeded, hwritten]
        exact hkept hstranded
      intro table hfound
      have hbefore := (ReferenceStore.get?_add_of_ne hsound.references hne).symm.trans hfound
      exact htidy table hbefore

theorem TidyAt.startup (htidy : workspace.TidyAt uri) : workspace.startup.1.TidyAt uri := by
  have hloaded := loadedFrom_startup workspace
  intro table hfound
  rw [hloaded.get?] at hfound
  rw [hloaded.opened]
  split
  · rename_i hclear
    rw [if_pos hclear] at hfound
    exact htidy table hfound
  · rename_i hclear
    rw [if_neg hclear] at hfound
    exact htidy table hfound

theorem TidyAt.shutdown (htidy : workspace.TidyAt uri) (hsound : workspace.Sound)
    (timestamp : UInt64) : (workspace.shutdown timestamp).TidyAt uri := by
  rw [shutdown_eq]
  exact htidy.flushAll hsound

omit [ByteStore σ] in
theorem tidyAt_new (config : Config) (cache : σ) (uri : String) :
    (new config cache).TidyAt uri := by
  intro table hfound
  cases hfound

/-- Every operation keeps it so, save for the documents that are left open by it. -/
theorem TidyAt.operate (htidy : workspace.TidyAt uri) (hsound : workspace.Sound)
    {operation : Operation} (hkept : uri ∉ workspace.strandedBy operation) :
    (workspace.operate operation).TidyAt uri := by
  cases operation with
  | shutdown timestamp => exact htidy.shutdown hsound timestamp
  | startup => exact htidy.startup
  | act action =>
    cases action with
    | openDocument document => exact htidy.openDocument hsound document
    | edit document => exact htidy.markOpen document.uri
    | flush other => exact htidy.flush hsound other
    | flushAll => exact htidy.flushAll hsound
    | advance duration => exact htidy.advance hsound duration
    | close other => exact htidy.close hsound hkept
    | restore other => exact htidy.restore hsound hkept
    | forget other => exact htidy.forget hsound other
    | discover document => exact htidy.discover hsound hkept
    | restart config timestamp => exact (tidyAt_new _ _ uri).startup

/-- A run keeps it so, save for the documents that are left open in it. -/
theorem TidyAt.operateAll (htidy : workspace.TidyAt uri) (hreachable : workspace.Reachable)
    {operations : List Operation} (hkept : uri ∉ workspace.strandedIn operations) :
    (workspace.operateAll operations).TidyAt uri := by
  induction operations generalizing workspace with
  | nil => exact htidy
  | cons operation rest ih =>
    rw [strandedIn, List.mem_append, not_or] at hkept
    exact ih (htidy.operate hreachable.sound hkept.1) (hreachable.operate operation) hkept.2

end

/-! ## What discovery leaves behind -/

section

variable [ByteStore σ] {holds : σ → Contents → Prop} (hresilient : Resilient holds)

include hresilient

/-- Discovering a document puts its summary in place whatever the cache does. The references found
for it are those just read, unless the cache has taken them and others are held open. -/
theorem discover_closed {workspace : Workspace σ} (hsound : workspace.Sound)
    (hanswers : Answers holds workspace.cache) {document : Document}
    (hclosed : document.uri ∉ workspace.opened)
    (hdecodes : Stored.Decodes (workspace.read document).2) :
    let table := (workspace.read document).2
    let after := workspace.discover document
    after.references.summary? document.uri = some table.summary ∧
      after.fetch? document.uri =
        some (if (ByteStore.writeReferences workspace.cache table).succeeded then
          (workspace.references.get? document.uri).getD table else table) := by
  intro table after
  have hhash := hsound.hash_references document
  by_cases hwritten : (ByteStore.writeReferences workspace.cache table).fault? = none
  · have hread : ByteStore.readReferences (ByteStore.writeReferences workspace.cache table).after
        document.uri = .ok (some table) :=
      hresilient.readReferences_written hanswers hwritten hdecodes
    have hafter : after = _ := discover_of_closed hclosed hwritten
    rw [hafter]
    constructor
    · exact (ReferenceStore.summary?_addSummary hsound.references hhash _).trans (if_pos rfl)
    · rw [fetch?, ReferenceStore.fetch?, ReferenceStore.get?_addSummary, hread, Attempt.succeeded,
        hwritten, Option.isNone_none, if_pos rfl]
      cases workspace.references.get? document.uri <;> rfl
  · have hafter : after = _ := discover_of_refused hclosed hwritten
    have hget : (workspace.references.add table).get? document.uri = some table :=
      (ReferenceStore.get?_add hsound.references hhash _).trans (if_pos rfl)
    rw [hafter]
    constructor
    · exact (ReferenceStore.summary?_add hsound.references hhash _).trans (if_pos rfl)
    · rw [fetch?, ReferenceStore.fetch?, hget, Option.some_or, Attempt.succeeded,
        if_neg (mt Option.isNone_iff_eq_none.1 hwritten)]

/-- After any operations, whichever changes the cache has refused, discovering a document that is
not open puts its summary into the index. The references found for it are those just read unless
the cache takes them while others are held open, and so whenever no operation has left references
of the document open. -/
theorem fetch?_discover (config : Config) {cache : σ} {contents : Contents}
    (hholds : holds cache contents) (operations : List Operation) {document : Document}
    (hclosed : document.uri ∉ ((new config cache).operateAll operations).opened)
    (hdecodes : Stored.Decodes (((new config cache).operateAll operations).read document).2) :
    let workspace := (new config cache).operateAll operations
    let table := (workspace.read document).2
    let after := workspace.discover document
    after.references.summary? document.uri = some table.summary ∧
      (∀ name, lower name ∈ table.summary.identifiers →
        document.uri ∈ after.references.candidates name) ∧
      after.fetch? document.uri =
        some (if (ByteStore.writeReferences workspace.cache table).succeeded then
          (workspace.references.get? document.uri).getD table else table) ∧
      (document.uri ∉ (new config cache).strandedIn operations →
        after.fetch? document.uri = some table) := by
  intro workspace table after
  have hreachable : workspace.Reachable := (Reachable.new config cache).operateAll operations
  have hsound := hreachable.sound
  have hstart : Answers holds (new config cache).cache := ⟨contents, hholds⟩
  have hanswers := answers_operateAll hresilient hstart operations
  obtain ⟨hsummary, hfetch⟩ := discover_closed hresilient hsound hanswers hclosed hdecodes
  refine ⟨hsummary, ?_, hfetch, ?_⟩
  · intro name hname
    exact ReferenceStore.mem_candidates (hsound.discover document).references hsummary hname
  · intro hkept
    have htidy : workspace.TidyAt document.uri :=
      (tidyAt_new config cache document.uri).operateAll (Reachable.new config cache) hkept
    have hnone : workspace.references.get? document.uri = none :=
      Option.eq_none_iff_forall_ne_some.2 fun found hfound => hclosed (htidy found hfound)
    rw [hfetch, hnone, Option.getD_none, ite_self]

end

/-! ### A write that is refused, and a newer version of the document -/

/-- Another version of the document that uses a class. -/
def changedDocument : Document :=
  Snippet.document "b" "<?php new B();" [Snippet.expressionStatement (Snippet.creation "B" [])]

/-- A cache that refuses its first write. -/
def refusingCache : Faltering MemoryCache :=
  ⟨.empty, .storage "full", [true]⟩

/-- The references of one document are refused, and found again all the same; those of another have
been put away when it is discovered anew. -/
theorem fetch?_discover_refused :
    let start := new {} refusingCache
    let operations : List Operation :=
      [.act (.discover declaringDocument), .act (.openDocument usingDocument), .act (.close "b")]
    let workspace := start.operateAll operations
    changedDocument.uri ∉ workspace.opened ∧
      Stored.Decodes (workspace.read changedDocument).2 ∧
      start.strandedIn operations = ["a"] ∧
      (workspace.discover changedDocument).fetch? "b" = some (workspace.read changedDocument).2 := by
  intro start operations workspace
  have hresilient := Faltering.resilient MemoryCache.reliable_holds
  have hholds : refusingCache.inner.Holds fun _ => none := MemoryCache.holds_empty
  have hclosed : changedDocument.uri ∉ workspace.opened := by decide +kernel
  have hdecodes : Stored.Decodes (workspace.read changedDocument).2 := by decide +kernel
  have hstranded : start.strandedIn operations = ["a"] := by decide +kernel
  obtain ⟨-, -, -, hfetch⟩ :=
    fetch?_discover hresilient {} hholds operations hclosed hdecodes
  refine ⟨hclosed, hdecodes, hstranded, hfetch ?_⟩
  rw [hstranded]
  decide

/-- The first version is held open because its references are refused. When the second one is
discovered, the cache takes its references, and yet those of the first are found. -/
theorem discover_hidden_by_refused :
    let first := (new {} refusingCache).operateAll [.act (.discover usingDocument)]
    let table := (first.read changedDocument).2
    let after := first.discover changedDocument
    changedDocument.uri ∉ first.opened ∧
      after.references.summary? changedDocument.uri = some table.summary ∧
      after.fetch? changedDocument.uri ≠ some table ∧
      (after.fetch? changedDocument.uri).map (·.summary.identifiers) = some ["a"] ∧
      table.summary.identifiers = ["b"] := by
  decide +kernel

end Workspace

end SymbolIndex
