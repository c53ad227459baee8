import SymbolIndex.Cache.Bucket
import SymbolIndex.Proofs.Exchange.References

/-!
# Cached values are decoded to what was encoded

A storable table, saved state or bucket is read back from its bytes: `Stored.decode?_encode`. For
the tables this holds exactly up to 1023 lists and maps around each other; the other values never
have as many.
-/

namespace SymbolIndex

open SymbolIndex.Record

/-! ### Tables -/

section

variable {α β : Type} (build : String → UInt64 → α → β) (read : Nat → Datum → Option α)

/-- Reads a table of a document: its name, the digest it is filed under and the root. -/
def tableOfDatum? (room : Nat) (datum : Datum) : Option β := do
  let [uri, hash, root] ← fields? .compact ["uri", "hash", "root"] room datum | none
  some (build (← text? (← uri)) (← word64? (← hash)) (← read (room - 1) (← root)))

variable {build read}

/-- A table is stored with the map around its root one level deeper than the root. -/
theorem StoredAs.table {uri : String} {root : α} {datum : Datum} {depth : Nat}
    (huri : IsShort uri) (hash : UInt64) (hroot : StoredAs read root datum depth) :
    StoredAs (tableOfDatum? build read) (build uri hash root)
      (.record [("uri", .text uri), ("hash", .natural hash.toNat), ("root", datum)])
      (1 + depth) where
  isKept := by
    apply MessagePack.isKept_record ["uri", "hash", "root"] rfl (by decide) (by decide)
    simp only [List.forall_mem_cons, List.not_mem_nil, false_implies, implies_true, and_true]
    exact ⟨huri, MessagePack.isKept_word64 hash, hroot.isKept⟩
  nesting_le := by
    have hnesting := hroot.nesting_le
    have hle : (Datum.record [("uri", .text uri), ("hash", .natural hash.toNat),
        ("root", datum)]).nesting ≤ 2 * depth + 1 :=
      Datum.nesting_record_le (by simp [Datum.nesting, hnesting])
    omega
  read_eq := by
    intro room
    cases room with
    | zero =>
      rw [if_neg (by omega)]
      rfl
    | succ room =>
      have hfields := fields?_record
        [("uri", .text uri), ("hash", .natural hash.toNat), ("root", datum)]
        (by simp) .compact room
      have hread := hroot.read_eq room
      simp only [List.map_cons, List.map_nil] at hfields
      by_cases hroom : depth ≤ room
      · rw [if_pos (by omega)]
        simp [tableOfDatum?, hfields, text?, hread, hroom]
      · rw [if_neg (by omega)]
        simp [tableOfDatum?, hfields, text?, hread, hroom]

end

namespace SymbolTable

structure IsStorable (table : SymbolTable) : Prop where
  uri : IsShort table.uri
  root : table.root.IsStorable

/-- The number of lists and maps around each other in a table. -/
def depth (table : SymbolTable) : Nat :=
  1 + table.root.depth

theorem storedAs {table : SymbolTable} (h : table.IsStorable) :
    StoredAs ofDatum? table table.toDatum table.depth :=
  StoredAs.table h.uri table.hash (Symbol.storedAs h.root)

end SymbolTable

namespace ReferenceTable

structure IsStorable (table : ReferenceTable) : Prop where
  uri : IsShort table.uri
  root : table.root.IsStorable

/-- The number of lists and maps around each other in a table, not counting the maps that tell
scopes from references. -/
def depth (table : ReferenceTable) : Nat :=
  1 + table.root.depth

theorem storedAs {table : ReferenceTable} (h : table.IsStorable) :
    StoredAs ofDatum? table table.toDatum table.depth :=
  StoredAs.table h.uri table.hash (Scope.storedAs h.root)

end ReferenceTable

/-! ### Saved states and buckets -/

namespace StoredAs

theorem text {text : String} (h : IsShort text) :
    StoredAs (fun _ => text?) text (.text text) 0 where
  isKept := h
  nesting_le := by simp [Datum.nesting]
  read_eq := by simp [text?]

theorem byte (byte : UInt8) :
    StoredAs (fun _ => Bucket.byte?) byte (.natural byte.toNat) 0 where
  isKept := Nat.lt_trans byte.toNat_lt_size (by decide)
  nesting_le := by simp [Datum.nesting]
  read_eq := by simp [Bucket.byte?, naturalBelow?_natural byte.toNat_lt_size]

end StoredAs

namespace SavedState

structure IsStorable (state : SavedState) : Prop where
  length_knownUris : state.knownUris.length < UInt32.size
  knownUris : ∀ uri ∈ state.knownUris, IsShort uri

theorem storedAs {state : SavedState} (h : state.IsStorable) :
    StoredAs ofDatum? state state.toDatum 2 := by
  have huris := StoredAs.list h.length_knownUris fun uri hmem =>
    StoredAs.text (h.knownUris uri hmem)
  simp only [ite_self] at huris
  constructor
  · apply MessagePack.isKept_record ["timestamp", "known_uris"] rfl (by decide) (by decide)
    simp only [List.forall_mem_cons, List.not_mem_nil, false_implies, implies_true, and_true]
    exact ⟨MessagePack.isKept_word64 state.timestamp, huris.isKept⟩
  · have hle : state.toDatum.nesting ≤ 2 + 1 :=
      Datum.nesting_record_le (by
        have hnesting := huris.nesting_le
        simpa [Datum.nesting] using hnesting)
    omega
  · intro room
    cases room with
    | zero => rfl
    | succ room =>
      have hfields := fields?_record
        [("timestamp", .natural state.timestamp.toNat),
          ("known_uris", .list (state.knownUris.map Datum.text))] (by simp) .compact room
      have hread := huris.read_eq room
      simp only [List.map_cons, List.map_nil] at hfields
      by_cases hroom : 1 ≤ room
      · simp [ofDatum?, toDatum, hfields, hread, hroom]
      · simp [ofDatum?, toDatum, hfields, hread, hroom]

end SavedState

namespace Bucket

/-- An entry whose key and bytes have lengths that fit in 32 bits. -/
structure IsStorableEntry (entry : String × List UInt8) : Prop where
  key : IsShort entry.1
  length_bytes : entry.2.length < UInt32.size

structure IsStorable (bucket : Bucket) : Prop where
  length_entries : bucket.entries.length < UInt32.size
  entries : ∀ entry ∈ bucket.entries, IsStorableEntry entry

theorem storedAs_entry {entry : String × List UInt8} (h : IsStorableEntry entry) :
    StoredAs entryOfDatum? entry (entryToDatum entry) 2 := by
  have hbytes := StoredAs.list h.length_bytes fun byte _ => StoredAs.byte byte
  simp only [ite_self] at hbytes
  constructor
  · exact ⟨by simp [UInt32.size], h.key, hbytes.isKept, trivial⟩
  · have hnesting := hbytes.nesting_le
    simp only [entryToDatum, Datum.nesting, Datum.nestingAll] at hnesting ⊢
    omega
  · intro room
    have hread := hbytes.read_eq (room - 1)
    cases room with
    | zero => rfl
    | succ room =>
      rw [Nat.add_sub_cancel] at hread
      by_cases hroom : 1 ≤ room
      · simp [entryOfDatum?, entryToDatum, items?, text?, hread, hroom]
      · simp [entryOfDatum?, entryToDatum, items?, text?, hread, hroom]

theorem storedAs {bucket : Bucket} (h : bucket.IsStorable) :
    StoredAs ofDatum? bucket bucket.toDatum (1 + if bucket.entries.isEmpty then 0 else 2) := by
  obtain ⟨hkept, hnesting, hread⟩ :=
    StoredAs.list h.length_entries fun entry hmem => storedAs_entry (h.entries entry hmem)
  refine ⟨hkept, hnesting, ?_⟩
  intro room
  rw [ofDatum?, toDatum, hread]
  by_cases hroom : (1 + if bucket.entries.isEmpty then 0 else 2) ≤ room
  · rw [if_pos hroom, if_pos hroom]
    rfl
  · rw [if_neg hroom, if_neg hroom]
    rfl

end Bucket

/-! ### Bytes -/

namespace Stored

/-- What is stored no deeper than the readers go is read back, and nothing deeper. -/
theorem decode?_encode_of_storedAs {α : Type} [Stored α] {value : α} {depth : Nat}
    (h : StoredAs ofDatum? value (toDatum value) depth) :
    decode? (encode value) = if depth ≤ MessagePack.maxNesting then some value else none := by
  have hnesting := h.nesting_le
  have hread := h.read_eq MessagePack.maxNesting
  rw [decode?, encode, MessagePack.parse?_write h.isKept]
  by_cases hdepth : depth ≤ MessagePack.maxNesting
  · have hshallow : (toDatum value).nesting ≤ MessagePack.maxDepth := by
      rw [MessagePack.maxDepth]
      omega
    rw [if_pos hshallow, ← hread]
    rfl
  · rw [if_neg hdepth] at hread ⊢
    split
    · exact hread
    · rfl

/-- What is encoded is decoded to the same value. Only a table that has more than 1023 lists and
maps around each other is not decoded. -/
theorem decode?_encode :
    (∀ table : SymbolTable, table.IsStorable →
      decode? (encode table) = if table.depth ≤ 1023 then some table else none) ∧
    (∀ table : ReferenceTable, table.IsStorable →
      decode? (encode table) = if table.depth ≤ 1023 then some table else none) ∧
    (∀ state : SavedState, state.IsStorable → decode? (encode state) = some state) ∧
    ∀ bucket : Bucket, bucket.IsStorable → decode? (encode bucket) = some bucket := by
  refine ⟨?_, ?_, ?_, ?_⟩
  · intro table h
    exact decode?_encode_of_storedAs (SymbolTable.storedAs h)
  · intro table h
    exact decode?_encode_of_storedAs (ReferenceTable.storedAs h)
  · intro state h
    rw [decode?_encode_of_storedAs (SavedState.storedAs h), if_pos (by decide)]
  · intro bucket h
    have hshallow : (1 + if bucket.entries.isEmpty then 0 else 2) ≤ MessagePack.maxNesting := by
      split <;> decide
    rw [decode?_encode_of_storedAs (Bucket.storedAs h), if_pos hshallow]

section

private def samplePlace : Location :=
  ⟨"a", ⟨⟨1, 0⟩, ⟨70000, 200⟩⟩⟩

private def sampleMethod : Symbol :=
  { kind := .method, name := "run", modifiers := ⟨0x80000001⟩, doc := some ⟨"Runs.", "int"⟩,
    scope := some "C", value := some "" }

private def sampleClass : Symbol :=
  { kind := .classType, name := "C", location := some samplePlace,
    associated := [⟨.interfaceType, "I"⟩], children := [sampleMethod] }

/-- A method in a class in a file. -/
private def sampleSymbols : SymbolTable :=
  ⟨"a", 0xffffffffffffffff, { kind := .file, name := "a", children := [sampleClass] }⟩

private def sampleReference : Reference :=
  { kind := .function, name := "f", altName := some "\\f", location := samplePlace }

/-- A reference in a scope inside that of the file, and one beside that scope. -/
private def sampleReferences : ReferenceTable :=
  ⟨"a", 7, ⟨samplePlace,
    [.scope ⟨samplePlace, [.reference sampleReference]⟩, .reference sampleReference]⟩⟩

private def sampleState : SavedState :=
  ⟨1, ["a", "b"]⟩

private def sampleBucket : Bucket :=
  ⟨[("k", [0, 255])]⟩

/-- Values of all four kinds that can be stored, and are read back. -/
theorem decode?_encode_samples :
    (sampleSymbols.IsStorable ∧ decode? (encode sampleSymbols) = some sampleSymbols) ∧
      (sampleReferences.IsStorable ∧
        decode? (encode sampleReferences) = some sampleReferences) ∧
      (sampleState.IsStorable ∧ decode? (encode sampleState) = some sampleState) ∧
      (sampleBucket.IsStorable ∧ decode? (encode sampleBucket) = some sampleBucket) := by
  have hplace : samplePlace.IsStorable := ⟨by decide, ⟨by decide, by decide⟩, by decide, by decide⟩
  have hmethod : sampleMethod.HasStorableFields :=
    ⟨by decide, by simp [sampleMethod], by rintro _ ⟨⟩; exact ⟨by decide, by decide⟩, by decide,
      by decide, by simp [sampleMethod], by decide, by decide, by decide⟩
  have hclass : sampleClass.HasStorableFields :=
    ⟨by decide, by rintro _ ⟨⟩; exact hplace, by simp [sampleClass], by decide, by decide,
      by simpa [sampleClass, SymbolId.IsStorable] using by decide, by decide, by decide, by decide⟩
  have hfile : sampleSymbols.root.HasStorableFields :=
    ⟨by decide, by simp [sampleSymbols], by simp [sampleSymbols], by decide, by decide,
      by simp [sampleSymbols], by decide, by decide, by decide⟩
  have hsymbols : sampleSymbols.IsStorable :=
    ⟨by decide, hfile, ⟨hclass, ⟨hmethod, trivial⟩, trivial⟩, trivial⟩
  have hreference : sampleReference.IsStorable :=
    ⟨by decide, by decide, by decide, by decide, hplace⟩
  have hreferences : sampleReferences.IsStorable :=
    ⟨by decide, hplace, by decide, ⟨hplace, by decide, hreference, trivial⟩, hreference, trivial⟩
  have hstate : sampleState.IsStorable := ⟨by decide, by decide⟩
  have hbucket : sampleBucket.IsStorable :=
    ⟨by decide, by simpa [sampleBucket] using ⟨by decide, by decide⟩⟩
  obtain ⟨hdecodeSymbols, hdecodeReferences, hdecodeState, hdecodeBucket⟩ := decode?_encode
  refine ⟨⟨hsymbols, ?_⟩, ⟨hreferences, ?_⟩, ⟨hstate, hdecodeState _ hstate⟩,
    hbucket, hdecodeBucket _ hbucket⟩
  · rw [hdecodeSymbols _ hsymbols, if_pos (by decide)]
  · rw [hdecodeReferences _ hreferences, if_pos (by decide)]

end

end Stored

end SymbolIndex
