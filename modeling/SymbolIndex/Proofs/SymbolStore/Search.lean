import Mathlib.Data.List.Induction
import SymbolIndex.Proofs.Symbol.SearchKeys
import SymbolIndex.Proofs.SymbolStore.Soundness
import SymbolIndex.Proofs.Text.Casing

/-!
# Search in a symbol store

The searches of a symbol store go through its index: by full name to the key
that is the lower-cased name, by beginning to a stretch of keys.  Reading every
resident table from front to back would give the same symbols.  For the full
name this rests on names that are equal for their kind having one lower-case
form, which is always among the keys of a symbol.
-/

namespace SymbolIndex.SymbolStore

open SymbolIndex.Text

/-! ## Keys -/

theorem lower_mem_keys (kind : SymbolKind) (name : String) :
    lower name ∈ SearchKey.keys kind name :=
  List.mem_of_head? (SearchKey.head?_keys kind name)

/-- A symbol is filed under the lower-case form of every name it goes by. -/
theorem lower_mem_keys_of_nameEquals {symbol : Symbol} {text : String}
    (hname : symbol.nameEquals text = true) :
    lower text ∈ SearchKey.keys symbol.kind symbol.name := by
  have hlower : lower symbol.name = lower text := by
    rw [Symbol.nameEquals] at hname
    split at hname
    · rw [beq_iff_eq.1 hname]
    · exact lower_eq_of_eqIgnoringCase hname
  exact hlower ▸ lower_mem_keys symbol.kind symbol.name

/-- Some key of the symbol begins with the lower-case form of a text. -/
def hasKeyFrom (text : String) (symbol : Symbol) : Bool :=
  (SearchKey.keys symbol.kind symbol.name).any fun key =>
    (lower text).toList.isPrefixOf key.toList

/-! ## Reading all tables -/

/-- The symbols of all resident tables. -/
def allSymbols (store : SymbolStore) : List Symbol :=
  store.tables.flatMap SymbolTable.symbols

theorem map_symbol_indexed (entry : ResidentTable) :
    (indexed entry).map (·.symbol) = entry.table.symbols.filter Symbol.isIndexable := by
  rw [indexed, SymbolTable.symbols,
    ← Declared.map_symbol_preorderAll entry.number [] 0, List.filter_map]
  rfl

theorem map_symbol_declarations (store : SymbolStore) :
    store.declarations.map (·.symbol) = store.allSymbols.filter Symbol.isIndexable := by
  rw [declarations, allSymbols, tables, List.map_flatMap, List.filter_flatMap,
    List.flatMap_map]
  simp only [map_symbol_indexed]

theorem map_symbol_filter_declarations (store : SymbolStore) (p : Symbol → Bool) :
    (store.declarations.filter fun declared => p declared.symbol).map (·.symbol) =
      store.allSymbols.filter fun symbol => symbol.isIndexable && p symbol := by
  have hfilter : store.declarations.filter (fun declared => p declared.symbol) =
      store.declarations.filter (p ∘ (·.symbol)) := rfl
  rw [hfilter, ← List.filter_map, map_symbol_declarations, List.filter_filter]
  simp only [Bool.and_comm]

/-! ## Searching the index -/

/-- The index finds by a name what a reading of all tables finds. -/
theorem Sound.mem_find_iff {store : SymbolStore} (hsound : store.Sound)
    (text : String) (p : Symbol → Bool) (declared : Declared) :
    (declared ∈ (store.index.find text).filter fun found =>
        found.symbol.nameEquals text && p found.symbol) ↔
      declared ∈ store.declarations.filter fun found =>
        found.symbol.nameEquals text && p found.symbol := by
  rw [List.mem_filter, List.mem_filter, NameIndex.find_eq_under, hsound.exact]
  constructor
  · rintro ⟨⟨hmem, -⟩, hmatch⟩
    exact ⟨hmem, hmatch⟩
  · rintro ⟨hmem, hmatch⟩
    have hname := (Bool.and_eq_true_iff.1 hmatch).1
    exact ⟨⟨hmem, lower_mem_keys_of_nameEquals hname⟩, hmatch⟩

/-- The index finds by a beginning what a reading of all tables finds. -/
theorem Sound.mem_startingWith_iff {store : SymbolStore} (hsound : store.Sound)
    (text : String) (p : Symbol → Bool) (declared : Declared) :
    (declared ∈ (store.index.startingWith text).filter fun found => p found.symbol) ↔
      declared ∈ store.declarations.filter fun found =>
        p found.symbol && hasKeyFrom text found.symbol := by
  rw [List.mem_filter, List.mem_filter, NameIndex.mem_startingWith_iff hsound.ordered,
    Bool.and_eq_true_iff, hasKeyFrom, List.any_eq_true]
  constructor
  · rintro ⟨⟨key, hbegins, hmem⟩, hp⟩
    obtain ⟨hdeclared, hkey⟩ := (hsound.exact key declared).1 hmem
    exact ⟨hdeclared, hp, key, hkey, List.isPrefixOf_iff_prefix.2 hbegins⟩
  · rintro ⟨hdeclared, hp, key, hkey, hbegins⟩
    exact ⟨⟨key, List.isPrefixOf_iff_prefix.1 hbegins,
      (hsound.exact key declared).2 ⟨hdeclared, hkey⟩⟩, hp⟩

/-- Declarations that were found, each kept once, are those of the scan that
finds the same ones. -/
theorem Sound.distinct_perm {store : SymbolStore} (hsound : store.Sound)
    {found : List Declared} {p : Declared → Bool}
    (hfound : ∀ declared, declared ∈ found ↔ declared ∈ store.declarations.filter p) :
    (Declared.distinct found).Perm (store.declarations.filter p) := by
  have hidentified : Declared.Identified found := by
    apply hsound.identified.subset
    intro declared hmem
    exact (List.mem_filter.1 ((hfound declared).1 hmem)).1
  apply (List.perm_ext_iff_of_nodup (Declared.nodup_distinct hidentified)
    (hsound.nodup_declarations.filter p)).2
  intro declared
  rw [Declared.mem_distinct hidentified, hfound]

/-- A search by name has the same results as a reading of all tables. -/
theorem Sound.find_perm {store : SymbolStore} (hsound : store.Sound)
    (text : String) (p : Symbol → Bool) :
    (store.find text p).Perm (store.allSymbols.filter fun symbol =>
      symbol.isIndexable && (symbol.nameEquals text && p symbol)) := by
  rw [← map_symbol_filter_declarations store fun symbol => symbol.nameEquals text && p symbol]
  exact (hsound.distinct_perm (hsound.mem_find_iff text p)).map _

/-- A search by a beginning has the same results as a reading of all tables. -/
theorem Sound.startingWith_perm {store : SymbolStore} (hsound : store.Sound)
    (text : String) (p : Symbol → Bool) :
    (store.startingWith text p).Perm (store.allSymbols.filter fun symbol =>
      symbol.isIndexable && (p symbol && hasKeyFrom text symbol)) := by
  rw [← map_symbol_filter_declarations store fun symbol => p symbol && hasKeyFrom text symbol]
  exact (hsound.distinct_perm (hsound.mem_startingWith_iff text p)).map _

/-! ## Runs of changes -/

/-- A change of a store: the declarations of a document, below a root symbol,
are put in, or those of a document are taken away. -/
inductive Change where
  | add (uri : String) (root : Symbol)
  | remove (uri : String)

namespace Change

def uri : Change → String
  | add uri _ => uri
  | remove uri => uri

/-- The table that a change leaves for its document, filed under a digest. -/
def table? (hashOf : String → UInt64) : Change → Option SymbolTable
  | add uri root => some ⟨uri, hashOf uri, root⟩
  | remove _ => none

example (uri : String) (root : Symbol) :
    table? uriHash (add uri root) = some (SymbolTable.new uri root) := rfl

end Change

def change (store : SymbolStore) (next : Change) : SymbolStore :=
  match next.table? store.hashOf with
  | some table => store.add table
  | none => store.remove next.uri

/-- The store that changes make of an empty one. -/
def afterChanges (hashOf : String → UInt64) (changes : List Change) : SymbolStore :=
  changes.foldl change { hashOf := hashOf }

/-- The table added last for a document, unless it was removed since. -/
def lastTable? (hashOf : String → UInt64) (changes : List Change) (uri : String) :
    Option SymbolTable :=
  (changes.filter (·.uri == uri)).getLast?.bind (Change.table? hashOf)

/-- The last change of a document decides about its table. -/
theorem lastTable?_concat (hashOf : String → UInt64) (changes : List Change)
    (next : Change) (uri : String) :
    lastTable? hashOf (changes ++ [next]) uri =
      if uri = next.uri then next.table? hashOf else lastTable? hashOf changes uri := by
  rw [lastTable?, bind_getLast?_filter_concat, ← lastTable?]
  by_cases heq : uri = next.uri
  · rw [if_pos heq, if_pos (beq_iff_eq.2 heq.symm)]
  · rw [if_neg heq, if_neg fun hsame => heq (beq_iff_eq.1 hsame).symm]

/-- A document has the one table that it is asked for. -/
theorem Filed.filter_tables {store : SymbolStore} (hfiled : store.Filed)
    (hsound : store.Sound) (uri : String) :
    store.tables.filter (·.uri == uri) = (store.get? uri).toList := by
  have hholds : store.resident.filter (fun entry => entry.table.uri == uri) =
      store.resident.filter (store.holds uri) := by
    apply List.filter_congr
    intro entry hentry
    have hhash := hfiled entry.table (List.mem_map_of_mem hentry)
    by_cases heq : entry.table.uri = uri
    · simp [holds, hhash, heq]
    · simp [holds, heq]
  have hmap : store.tables.filter (·.uri == uri) =
      (store.resident.filter fun entry => entry.table.uri == uri).map (·.table) := by
    rw [tables, List.filter_map]
    rfl
  rw [hmap, hholds, hsound.once.filter_eq_toList_find?, get?, resident?]
  cases store.resident.find? (store.holds uri) <;> rfl

/-- After any changes the store is sound, and has the table that was added last for each document.
-/
theorem filed_afterChanges (hashOf : String → UInt64) (changes : List Change) :
    (afterChanges hashOf changes).hashOf = hashOf ∧
      (afterChanges hashOf changes).Sound ∧ (afterChanges hashOf changes).Filed ∧
        ∀ uri, (afterChanges hashOf changes).get? uri = lastTable? hashOf changes uri := by
  induction changes using List.reverseRecOn with
  | nil => exact ⟨rfl, sound_empty hashOf, filed_empty hashOf, fun _ => rfl⟩
  | append_singleton earlier next ih =>
      obtain ⟨hhash, hsound, hfiled, hget⟩ := ih
      have hrun : afterChanges hashOf (earlier ++ [next]) =
          change (afterChanges hashOf earlier) next := by
        rw [afterChanges, List.foldl_append]
        rfl
      generalize afterChanges hashOf earlier = store at *
      cases next with
      | add uri root =>
          have hadd : change store (.add uri root) =
              store.add ⟨uri, store.hashOf uri, root⟩ := rfl
          rw [hrun, hadd]
          refine ⟨by simpa using hhash, hsound.add _, hfiled.add rfl, ?_⟩
          intro other
          rw [get?_add hsound rfl, lastTable?_concat, hget, hhash]
          rfl
      | remove uri =>
          have hremove : change store (.remove uri) = store.remove uri := rfl
          rw [hrun, hremove]
          refine ⟨by simpa using hhash, hsound.remove _, hfiled.remove _, ?_⟩
          intro other
          rw [get?_remove hsound, lastTable?_concat, hget]
          rfl

/-- After any changes, under any digest, a store holds for each document the
table added last, searches give the symbols of the resident tables that a scan
would give, each as often, and taking a document away takes its declarations
and no others out of the index. -/
theorem afterChanges_answers_scan (hashOf : String → UInt64) (changes : List Change) :
    let store := afterChanges hashOf changes
    (∀ uri, store.get? uri = lastTable? hashOf changes uri ∧
      store.tables.filter (·.uri == uri) = (lastTable? hashOf changes uri).toList) ∧
    (∀ text p, (store.find text p).Perm ((store.tables.flatMap SymbolTable.symbols).filter
      fun symbol => symbol.isIndexable && (symbol.nameEquals text && p symbol))) ∧
    (∀ text p, (store.startingWith text p).Perm
      ((store.tables.flatMap SymbolTable.symbols).filter fun symbol =>
        symbol.isIndexable && (p symbol && hasKeyFrom text symbol))) ∧
    ∀ uri entry, store.resident? uri = some entry → ∀ key declared,
      declared ∈ (store.remove uri).index.under key ↔
        declared ∈ store.index.under key ∧ declared ∉ indexed entry := by
  obtain ⟨-, hsound, hfiled, hget⟩ := filed_afterChanges hashOf changes
  refine ⟨fun uri => ⟨hget uri, ?_⟩, hsound.find_perm, hsound.startingWith_perm, ?_⟩
  · rw [hfiled.filter_tables hsound, hget]
  · intro uri entry hentry key declared
    rw [(hsound.remove uri).exact, hsound.exact, hsound.mem_declarations_remove hentry]
    exact and_right_comm

end SymbolIndex.SymbolStore
