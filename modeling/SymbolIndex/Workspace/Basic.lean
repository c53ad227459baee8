import SymbolIndex.Config
import SymbolIndex.Debouncer
import SymbolIndex.Reading.Declarations
import SymbolIndex.Reading.Uses
import SymbolIndex.ReferenceStore

/-!
# Workspaces

The documents of a project through their lives: opened, edited, closed, found on disk, forgotten,
and put away between two runs of the program. The symbols of every known document are at hand; the
references of closed ones wait in the cache. A fault of the cache never stops an operation, which
does what is still possible.
-/

namespace SymbolIndex

structure Workspace (σ : Type) where
  config : Config
  cache : σ
  symbols : SymbolStore := .empty
  references : ReferenceStore
  /-- The names of the open documents, each once. -/
  opened : List String := []
  edits : Debouncer Document

namespace Workspace

variable {σ : Type}

/-- A workspace without documents over a cache. -/
def new (config : Config) (cache : σ) : Workspace σ where
  config := config
  cache := cache
  references := .new config.fetchWindow
  edits := { wait := config.debounceMs }

def isOpen (workspace : Workspace σ) (uri : String) : Bool :=
  workspace.opened.contains uri

def markOpen (workspace : Workspace σ) (uri : String) : Workspace σ :=
  if workspace.isOpen uri then workspace
  else { workspace with opened := workspace.opened ++ [uri] }

def markClosed (workspace : Workspace σ) (uri : String) : Workspace σ :=
  { workspace with opened := workspace.opened.filter (· != uri) }

/-- The documents with symbols at hand or with a summary, in order. -/
def knownUris (workspace : Workspace σ) : List String :=
  sortedDistinct (workspace.symbols.uris ++ workspace.references.summaries.map (·.uri))

/-! ### Reading documents -/

/-- Reads a document. Its symbols are stored first, so that its references can be resolved among
them and those of all other documents. -/
def read (workspace : Workspace σ) (document : Document) : Workspace σ × ReferenceTable :=
  let table := SymbolTable.ofDocument document
  let symbols := workspace.symbols.add table
  ({ workspace with symbols := symbols },
    ReferenceTable.ofDocument document table (SymbolSource.ofStore symbols))

/-- Reads a document and holds its references open. -/
def rebuild (workspace : Workspace σ) (document : Document) : Workspace σ :=
  let (workspace, references) := workspace.read document
  { workspace with references := workspace.references.add references }

def rebuildAll (workspace : Workspace σ) (documents : List Document) : Workspace σ :=
  documents.foldl rebuild workspace

/-! ### Open documents -/

/-- Opens a document, which takes the place of all edits of it. -/
def openDocument (workspace : Workspace σ) (document : Document) : Workspace σ :=
  let workspace := workspace.markOpen document.uri
  { workspace with edits := workspace.edits.cancel document.uri }.rebuild document

/-- Puts a new version of a document off until no newer one comes for a while. -/
def edit (workspace : Workspace σ) (document : Document) : Workspace σ :=
  let workspace := workspace.markOpen document.uri
  { workspace with edits := workspace.edits.schedule document.uri document }

/-- Reads the version of a document that was put off. -/
def flush (workspace : Workspace σ) (uri : String) : Workspace σ :=
  let (document, edits) := workspace.edits.flush uri
  { workspace with edits := edits }.rebuildAll document.toList

/-- Reads all documents that were put off. -/
def flushAll (workspace : Workspace σ) : Workspace σ :=
  let (documents, edits) := workspace.edits.flushAll
  { workspace with edits := edits }.rebuildAll documents

/-- Lets time pass and reads the documents that have been quiet long enough. -/
def advance (workspace : Workspace σ) (duration : Nat) : Workspace σ :=
  let (documents, edits) := workspace.edits.advance duration
  { workspace with edits := edits }.rebuildAll documents

section

variable [ByteStore σ]

/-! ### Tables in the cache -/

def writeSymbols (workspace : Workspace σ) (table : SymbolTable) : Workspace σ :=
  { workspace with cache := (ByteStore.writeSymbols workspace.cache table).after }

def writeReferences (workspace : Workspace σ) (table : ReferenceTable) : Workspace σ :=
  { workspace with cache := (ByteStore.writeReferences workspace.cache table).after }

/-- The symbols of a document in the cache, if they can be read. -/
def cachedSymbols? (workspace : Workspace σ) (uri : String) : Option SymbolTable :=
  (ByteStore.readSymbols workspace.cache uri).toOption.join

/-- The references of a document in the cache, if they can be read. -/
def cachedReferences? (workspace : Workspace σ) (uri : String) : Option ReferenceTable :=
  (ByteStore.readReferences workspace.cache uri).toOption.join

/-- Moves the open references of a document to the cache. -/
def closeReferences (workspace : Workspace σ) (uri : String) : Workspace σ :=
  let closing := workspace.references.close workspace.cache uri
  { workspace with references := closing.store, cache := closing.cache }

/-! ### Closed documents -/

/-- Puts the references of a document away. Its symbols stay, and a copy of them is kept too. -/
def close (workspace : Workspace σ) (uri : String) : Workspace σ :=
  let workspace := ((workspace.flush uri).markClosed uri).closeReferences uri
  match workspace.symbols.get? uri with
  | some table => workspace.writeSymbols table
  | none => workspace

/-- Brings the references of a closed document back. The second part tells whether the document is
open afterwards. -/
def restore (workspace : Workspace σ) (uri : String) : Workspace σ × Bool :=
  if workspace.references.isOpen uri then (workspace.markOpen uri, true)
  else
    let symbols? :=
      if workspace.symbols.contains uri then some workspace.symbols
      else (workspace.cachedSymbols? uri).map workspace.symbols.add
    match symbols? with
    | none => (workspace, false)
    | some symbols =>
      let workspace := { workspace with symbols := symbols }
      match workspace.cachedReferences? uri with
      | none => (workspace, false)
      | some table =>
        ({ workspace with references := workspace.references.add table }.markOpen uri, true)

/-- Removes every trace of a document. -/
def forget (workspace : Workspace σ) (uri : String) : Workspace σ :=
  let workspace := workspace.markClosed uri
  { workspace with
    edits := workspace.edits.cancel uri
    symbols := workspace.symbols.remove uri
    references := workspace.references.remove uri
    cache := (ByteStore.deleteTables workspace.cache uri).after }

/-- Takes note of a document that is not open. Its references go to the cache; if they cannot be
written they are held open. An open document is left alone. -/
def discover (workspace : Workspace σ) (document : Document) : Workspace σ :=
  if workspace.isOpen document.uri then workspace
  else
    let (workspace, references) := workspace.read document
    match ByteStore.writeReferences workspace.cache references with
    | ⟨cache, none⟩ =>
      { workspace with
        cache := cache, references := workspace.references.addSummary references.summary }
    | ⟨cache, some _⟩ =>
      { workspace with cache := cache, references := workspace.references.add references }

/-! ### The end and the start of a run -/

/-- Writes all tables and the state at the end of a run. Edits that come later stay put off until
they are flushed. -/
def shutdown (workspace : Workspace σ) (timestamp : UInt64) : Workspace σ :=
  let workspace := workspace.flushAll
  let workspace := workspace.symbols.tables.foldl writeSymbols workspace
  let workspace := workspace.references.opened.foldl writeReferences workspace
  let written := ByteStore.writeState workspace.cache (.new timestamp workspace.knownUris)
  { workspace with
    edits := workspace.edits.stop, cache := (ByteStore.flush written.after).after }

/-- Loads the symbols of a document, unless they are at hand. The second part tells whether they
came from the cache. -/
def loadSymbols (workspace : Workspace σ) (uri : String) : Workspace σ × Bool :=
  if workspace.symbols.contains uri then (workspace, false)
  else
    match workspace.cachedSymbols? uri with
    | some table => ({ workspace with symbols := workspace.symbols.add table }, true)
    | none => (workspace, false)

/-- Loads the summary of a document, unless it is at hand. The second part tells whether it came
from the cache. -/
def loadSummary (workspace : Workspace σ) (uri : String) : Workspace σ × Bool :=
  if (workspace.references.summary? uri).isSome then (workspace, false)
  else
    match workspace.cachedReferences? uri with
    | some table =>
      ({ workspace with references := workspace.references.addSummary table.summary }, true)
    | none => (workspace, false)

/-- Loads documents and counts those of which something came from the cache. -/
def loadAll (workspace : Workspace σ) : List String → Workspace σ × Nat
  | [] => (workspace, 0)
  | uri :: rest =>
    let (workspace, hasSymbols) := workspace.loadSymbols uri
    let (workspace, hasSummary) := workspace.loadSummary uri
    let (workspace, count) := loadAll workspace rest
    (workspace, if hasSymbols || hasSummary then count + 1 else count)

/-- Brings back the documents known at the end of the last run and counts them. When the cache is
to be cleared, or when it holds no state, there are none. -/
def startup (workspace : Workspace σ) : Workspace σ × Nat :=
  if workspace.config.clearCache then
    ({ workspace with cache := (ByteStore.clear workspace.cache).after }, 0)
  else
    match ByteStore.readState workspace.cache with
    | .ok (some state) => workspace.loadAll state.knownUris
    | _ => (workspace, 0)

end

end Workspace

end SymbolIndex
