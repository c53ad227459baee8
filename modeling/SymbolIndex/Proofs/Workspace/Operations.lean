import SymbolIndex.Proofs.Cache.Resilient
import SymbolIndex.Proofs.Workspace.Restoring

/-!
# Runs of operations

The operations of a workspace one after another, the end and the start of a run among them, over one
cache. Whichever changes the cache refuses, it stands for some contents throughout.
-/

namespace SymbolIndex

open ByteStore

namespace Workspace

variable {σ : Type}

/-! ## Operations -/

/-- An action, or the end or the start of a run within it. -/
inductive Operation where
  | act (action : Action)
  | shutdown (timestamp : UInt64)
  | startup

section

variable [ByteStore σ]

def operate (workspace : Workspace σ) : Operation → Workspace σ
  | .act action => workspace.step action
  | .shutdown timestamp => workspace.shutdown timestamp
  | .startup => workspace.startup.1

def operateAll (workspace : Workspace σ) (operations : List Operation) : Workspace σ :=
  operations.foldl operate workspace

variable {workspace : Workspace σ}

theorem Reachable.operate (hreachable : workspace.Reachable) (operation : Operation) :
    (workspace.operate operation).Reachable := by
  cases operation with
  | act action => exact hreachable.step action
  | shutdown timestamp => exact hreachable.shutdown timestamp
  | startup => exact hreachable.startup

theorem Reachable.operateAll (hreachable : workspace.Reachable) (operations : List Operation) :
    (workspace.operateAll operations).Reachable := by
  induction operations generalizing workspace with
  | nil => exact hreachable
  | cons operation rest ih => exact ih (hreachable.operate operation)

end

/-! ## What operations leave alone -/

/-- Loading changes neither the cache nor what is open. -/
structure LoadedFrom (before after : Workspace σ) : Prop where
  cache : after.cache = before.cache
  opened : after.opened = before.opened
  get? : ∀ uri, after.references.get? uri = before.references.get? uri

theorem LoadedFrom.trans {first second third : Workspace σ} (hfirst : LoadedFrom first second)
    (hsecond : LoadedFrom second third) : LoadedFrom first third where
  cache := hsecond.cache.trans hfirst.cache
  opened := hsecond.opened.trans hfirst.opened
  get? := fun uri => (hsecond.get? uri).trans (hfirst.get? uri)

section

variable [ByteStore σ]

theorem loadedFrom_loadSymbols (workspace : Workspace σ) (uri : String) :
    LoadedFrom workspace (workspace.loadSymbols uri).1 := by
  rw [loadSymbols]
  split
  · exact ⟨rfl, rfl, fun _ => rfl⟩
  · split
    · exact ⟨rfl, rfl, fun _ => rfl⟩
    · exact ⟨rfl, rfl, fun _ => rfl⟩

theorem loadedFrom_loadSummary (workspace : Workspace σ) (uri : String) :
    LoadedFrom workspace (workspace.loadSummary uri).1 := by
  rw [loadSummary]
  split
  · exact ⟨rfl, rfl, fun _ => rfl⟩
  · split
    · exact ⟨rfl, rfl, ReferenceStore.get?_addSummary _ _⟩
    · exact ⟨rfl, rfl, fun _ => rfl⟩

theorem loadedFrom_loadAll (workspace : Workspace σ) (uris : List String) :
    LoadedFrom workspace (workspace.loadAll uris).1 := by
  induction uris generalizing workspace with
  | nil => exact ⟨rfl, rfl, fun _ => rfl⟩
  | cons uri rest ih =>
    exact ((loadedFrom_loadSymbols workspace uri).trans (loadedFrom_loadSummary _ uri)).trans
      (ih _)

/-- A start changes the cache only when the cache is to be cleared. -/
theorem loadedFrom_startup (workspace : Workspace σ) :
    LoadedFrom (if workspace.config.clearCache
      then { workspace with cache := (ByteStore.clear workspace.cache).after } else workspace)
      workspace.startup.1 := by
  rw [startup]
  split
  · exact ⟨rfl, rfl, fun _ => rfl⟩
  · split
    · exact loadedFrom_loadAll workspace _
    · exact ⟨rfl, rfl, fun _ => rfl⟩

end

/-! ## What the cache stands for -/

section

variable [ByteStore σ] {holds : σ → Contents → Prop} (hresilient : Resilient holds)
variable {workspace : Workspace σ} (hanswers : Answers holds workspace.cache)

include hresilient hanswers

theorem answers_closeReferences (uri : String) :
    Answers holds (workspace.closeReferences uri).cache := by
  rw [closeReferences]
  rcases ReferenceStore.close_outcomes workspace.references workspace.cache uri with
    ⟨-, hclose⟩ | ⟨table, -, ⟨-, hclose⟩ | ⟨fault, -, hclose⟩⟩
  · rw [hclose]
    exact hanswers
  · rw [hclose]
    exact hresilient.answers_write hanswers _ _
  · rw [hclose]
    exact hresilient.answers_write hanswers _ _

theorem answers_close (uri : String) : Answers holds (workspace.close uri).cache := by
  have hflushed : Answers holds ((workspace.flush uri).markClosed uri).cache := by
    have hcache : ((workspace.flush uri).markClosed uri).cache = workspace.cache :=
      cache_rebuildAll _ _
    rw [hcache]
    exact hanswers
  have hclosed := answers_closeReferences hresilient hflushed uri
  rw [Workspace.close]
  split
  · exact hresilient.answers_write hclosed _ _
  · exact hclosed

theorem answers_discover (document : Document) :
    Answers holds (workspace.discover document).cache := by
  by_cases hopen : document.uri ∈ workspace.opened
  · rw [discover_of_open hopen]
    exact hanswers
  · by_cases hwritten : (ByteStore.writeReferences workspace.cache
        (workspace.read document).2).fault? = none
    · rw [discover_of_closed hopen hwritten]
      exact hresilient.answers_write hanswers _ _
    · rw [discover_of_refused hopen hwritten]
      exact hresilient.answers_write hanswers _ _

theorem answers_shutdown (timestamp : UInt64) :
    Answers holds (workspace.shutdown timestamp).cache := by
  have hflushed : Answers holds workspace.flushAll.cache := by
    rw [flushAll, cache_rebuildAll]
    exact hanswers
  have htables := hresilient.answers_writeAll hflushed workspace.flushAll.tableEntries
  rw [shutdown_eq]
  dsimp only
  rw [foldl_persist]
  exact hresilient.answers_flush (hresilient.answers_write htables _ _)

theorem answers_startup : Answers holds workspace.startup.1.cache := by
  rw [(loadedFrom_startup workspace).cache]
  split
  · exact hresilient.answers_clear hanswers
  · exact hanswers

/-- Every operation leaves a cache that answers. -/
theorem answers_operate (operation : Operation) :
    Answers holds (workspace.operate operation).cache := by
  cases operation with
  | shutdown timestamp => exact answers_shutdown hresilient hanswers timestamp
  | startup => exact answers_startup hresilient hanswers
  | act action =>
    cases action with
    | openDocument document =>
      have hcache : (workspace.openDocument document).cache = workspace.cache := by
        rw [openDocument, markOpen_eq]
        rfl
      rw [operate, step, hcache]
      exact hanswers
    | edit document =>
      have hcache : (workspace.edit document).cache = workspace.cache := by
        rw [edit, markOpen_eq]
      rw [operate, step, hcache]
      exact hanswers
    | flush uri =>
      rw [operate, step, flush, cache_rebuildAll]
      exact hanswers
    | flushAll =>
      rw [operate, step, flushAll, cache_rebuildAll]
      exact hanswers
    | advance duration =>
      rw [operate, step, advance, cache_rebuildAll]
      exact hanswers
    | close uri => exact answers_close hresilient hanswers uri
    | restore uri =>
      rw [operate, step, cache_restore]
      exact hanswers
    | forget uri => exact hresilient.answers_deleteTables hanswers uri
    | discover document => exact answers_discover hresilient hanswers document
    | restart config timestamp =>
      have hended : Answers holds (new { config with clearCache := false }
          (workspace.shutdown timestamp).cache).cache :=
        answers_shutdown hresilient hanswers timestamp
      exact answers_startup hresilient hended

theorem answers_operateAll (operations : List Operation) :
    Answers holds (workspace.operateAll operations).cache := by
  induction operations generalizing workspace with
  | nil => exact hanswers
  | cons operation rest ih => exact ih (answers_operate hresilient hanswers operation)

end

end Workspace

end SymbolIndex
