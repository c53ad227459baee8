import SymbolIndex.Cache.Stored
import SymbolIndex.NameIndex

/-!
# Reference store

The reference tables of open documents, and of every known document a summary that is indexed by
the names used in it. The tables of closed documents wait in a byte store and are fetched when
they are asked for.
-/

namespace SymbolIndex

structure ReferenceStore where
  hashOf : String → UInt64 := uriHash
  /-- How many tables are fetched at a time. -/
  window : Nat := 10
  opened : List ReferenceTable := []
  summaries : List ReferenceSummary := []
  index : NameIndex ReferenceSummary := {}

/-- The items in groups of a size, the last one of which may be smaller. -/
def groupsOf {α : Type} (size : Nat) : List α → List (List α)
  | [] => []
  | first :: rest =>
    (first :: rest.take (size - 1)) :: groupsOf size (rest.drop (size - 1))
termination_by items => items.length
decreasing_by simp only [List.length_drop, List.length_cons]; omega

theorem flatten_groupsOf {α : Type} (size : Nat) (items : List α) :
    (groupsOf size items).flatten = items := by
  fun_induction groupsOf size items with
  | case1 => rfl
  | case2 first rest ih => simp [ih]

namespace ReferenceStore

/-- A store without documents. At least one table is fetched at a time. -/
def new (window : Nat) : ReferenceStore :=
  { window := max window 1 }

/-- The table is filed where a document of this name is looked for. -/
def holdsTable (store : ReferenceStore) (uri : String) (table : ReferenceTable) : Bool :=
  table.hash == store.hashOf uri && table.uri == uri

/-- The summary is filed where a document of this name is looked for. -/
def holdsSummary (store : ReferenceStore) (uri : String) (summary : ReferenceSummary) : Bool :=
  summary.hash == store.hashOf uri && summary.uri == uri

/-- The open table of a document. -/
def get? (store : ReferenceStore) (uri : String) : Option ReferenceTable :=
  store.opened.find? (store.holdsTable uri)

def isOpen (store : ReferenceStore) (uri : String) : Bool :=
  (store.get? uri).isSome

def summary? (store : ReferenceStore) (uri : String) : Option ReferenceSummary :=
  store.summaries.find? (store.holdsSummary uri)

/-- Takes the open table of a document out. -/
def takeOpen (store : ReferenceStore) (uri : String) : ReferenceStore :=
  { store with opened := store.opened.eraseP (store.holdsTable uri) }

def removeSummary (store : ReferenceStore) (uri : String) : ReferenceStore :=
  match store.summary? uri with
  | none => store
  | some summary =>
    { store with
      summaries := store.summaries.eraseP (store.holdsSummary uri)
      index := store.index.remove summary.identifiers (·.uri == uri) }

/-- Puts a summary in the place of the one held for its document. -/
def addSummary (store : ReferenceStore) (summary : ReferenceSummary) : ReferenceStore :=
  let store := store.removeSummary summary.uri
  { store with
    summaries := store.summaries ++ [summary]
    index := store.index.add summary.identifiers summary }

/-- Holds a table open. -/
def putOpen (store : ReferenceStore) (table : ReferenceTable) : ReferenceStore :=
  { store with opened := store.opened ++ [table] }

/-- Holds a table open and puts its summary into the index, in the place of what was there for its
document. -/
def add (store : ReferenceStore) (table : ReferenceTable) : ReferenceStore :=
  ((store.takeOpen table.uri).addSummary table.summary).putOpen table

/-- Forgets a document. What the byte store holds of it stays there. -/
def remove (store : ReferenceStore) (uri : String) : ReferenceStore :=
  (store.takeOpen uri).removeSummary uri

/-- What is left after an open table was to be put away. -/
structure Closing (σ : Type) where
  store : ReferenceStore
  cache : σ
  /-- Whether there was an open table that is now put away, or why it is not. -/
  outcome : Except EngineFault Bool

section

variable {σ : Type} [ByteStore σ]

/-- Moves the open table of a document to the cache. It stays open if it cannot be written. -/
def close (store : ReferenceStore) (cache : σ) (uri : String) : Closing σ :=
  match store.get? uri with
  | none => ⟨store, cache, .ok false⟩
  | some table =>
    let left := store.takeOpen uri
    match ByteStore.writeReferences cache table with
    | ⟨cache, none⟩ => ⟨left, cache, .ok true⟩
    | ⟨cache, some fault⟩ => ⟨left.putOpen table, cache, .error fault⟩

/-- The table of a document: the open one, else the one in the cache. -/
def fetch? (store : ReferenceStore) (cache : σ) (uri : String) : Option ReferenceTable :=
  (store.get? uri).or (ByteStore.readReferences cache uri).toOption.join

end

/-- The documents in which a name may be used, in order. -/
def candidates (store : ReferenceStore) (name : String) : List String :=
  sortedDistinct ((store.index.find name).map (·.uri))

/-- The references to a name for which `p` holds, by document. -/
def find {σ : Type} [ByteStore σ] (store : ReferenceStore) (cache : σ) (name : String)
    (p : Reference → Bool) : List Reference :=
  let fetched := (groupsOf store.window (store.candidates name)).flatMap
    (·.filterMap (store.fetch? cache))
  let tables := fetched.mergeSort fun left right => decide (left.uri ≤ right.uri)
  tables.flatMap fun table =>
    table.references.filter fun reference => reference.isNamed name && p reference

end ReferenceStore

end SymbolIndex
