import Mathlib.Data.List.Nodup
import SymbolIndex.Proofs.Filing
import SymbolIndex.Proofs.NameIndex
import SymbolIndex.Proofs.Symbol.Declared
import SymbolIndex.SymbolStore

/-!
# Soundness of symbol stores

A symbol store keeps its tables and an index over their declarations side by
side.  It is sound when each document is held at most once, the tables are told
apart by their numbers, and the index holds under every key exactly the
declarations of the resident tables that have it.  Putting a table in and taking
one away keep this, whatever the digest and however documents collide under it.
-/

namespace SymbolIndex.SymbolStore

/-- Every declaration that the index should hold. -/
def declarations (store : SymbolStore) : List Declared :=
  store.resident.flatMap indexed

structure Sound (store : SymbolStore) : Prop where
  once : FiledOnce store.holds store.resident
  numbered : store.resident.Pairwise fun left right => left.number ≠ right.number
  below : ∀ entry ∈ store.resident, entry.number < store.nextNumber
  ordered : store.index.IsOrdered
  exact : ∀ key declared, declared ∈ store.index.under key ↔
    declared ∈ store.declarations ∧ key ∈ keysOf declared

/-! ## Holding -/

theorem uri_of_holds {store : SymbolStore} {uri : String} {entry : ResidentTable}
    (hholds : store.holds uri entry = true) : entry.table.uri = uri := by
  simp only [holds, Bool.and_eq_true, beq_iff_eq] at hholds
  exact hholds.2

@[simp]
theorem hashOf_remove (store : SymbolStore) (uri : String) :
    (store.remove uri).hashOf = store.hashOf := by
  rw [remove]
  split <;> rfl

@[simp]
theorem hashOf_add (store : SymbolStore) (table : SymbolTable) :
    (store.add table).hashOf = store.hashOf := by
  simp [add]

@[simp]
theorem nextNumber_remove (store : SymbolStore) (uri : String) :
    (store.remove uri).nextNumber = store.nextNumber := by
  rw [remove]
  split <;> rfl

theorem resident_remove (store : SymbolStore) (uri : String) :
    (store.remove uri).resident = store.resident.eraseP (store.holds uri) := by
  rw [remove]
  split
  · rename_i hnone
    exact (List.eraseP_of_forall_not (List.find?_eq_none.1 hnone)).symm
  · rfl

theorem resident_add (store : SymbolStore) (table : SymbolTable) :
    (store.add table).resident =
      store.resident.eraseP (store.holds table.uri) ++ [⟨store.nextNumber, table⟩] := by
  simp [add, resident_remove]

theorem holds_add (store : SymbolStore) (table : SymbolTable) :
    (store.add table).holds = store.holds := by
  funext uri entry
  simp [holds]

theorem holds_remove (store : SymbolStore) (uri : String) :
    (store.remove uri).holds = store.holds := by
  funext other entry
  simp [holds]

/-! ## Declarations and their origins -/

/-- Everything that a table declares, whether it can be reached by name or not. -/
def everyDeclared (entry : ResidentTable) : List Declared :=
  Declared.preorderAll entry.number [] 0 entry.table.root.children

/-- Everything that the resident tables declare. -/
def allDeclared (store : SymbolStore) : List Declared :=
  store.resident.flatMap everyDeclared

theorem declarations_eq_filter (store : SymbolStore) :
    store.declarations = store.allDeclared.filter fun declared => declared.symbol.isIndexable := by
  rw [declarations, allDeclared, List.filter_flatMap]
  rfl

theorem declarations_subset (store : SymbolStore) : store.declarations ⊆ store.allDeclared := by
  rw [declarations_eq_filter]
  exact List.filter_subset_self _

theorem origin_of_mem_everyDeclared {entry : ResidentTable} {declared : Declared}
    (hmem : declared ∈ everyDeclared entry) :
    ∃ place, declared.origin = some ⟨entry.number, place⟩ := by
  obtain ⟨index, below, -, horigin⟩ :=
    Declared.origin_of_mem_preorderAll _ _ _ _ declared hmem
  exact ⟨_, horigin⟩

theorem origin_of_mem_indexed {entry : ResidentTable} {declared : Declared}
    (hmem : declared ∈ indexed entry) :
    ∃ place, declared.origin = some ⟨entry.number, place⟩ :=
  origin_of_mem_everyDeclared (List.mem_filter.1 hmem).1

/-- No two declarations of a sound store have the same origin. -/
theorem Sound.pairwise_origin {store : SymbolStore} (hsound : store.Sound) :
    store.allDeclared.Pairwise fun left right => left.origin ≠ right.origin := by
  rw [allDeclared, List.pairwise_flatMap]
  constructor
  · intro entry hentry
    exact Declared.pairwise_origin_preorderAll _ _ _ _
  · apply hsound.numbered.imp
    intro first second hnumber left hleft right hright heq
    obtain ⟨place, horigin⟩ := origin_of_mem_everyDeclared hleft
    obtain ⟨place', horigin'⟩ := origin_of_mem_everyDeclared hright
    rw [horigin, horigin'] at heq
    exact hnumber (congrArg Origin.table (Option.some.inj heq))

theorem Sound.nodup_declarations {store : SymbolStore} (hsound : store.Sound) :
    store.declarations.Nodup := by
  rw [declarations_eq_filter]
  exact (hsound.pairwise_origin.imp fun hne heq => hne (congrArg Declared.origin heq)).filter _

theorem Sound.identified_all {store : SymbolStore} (hsound : store.Sound) :
    Declared.Identified store.allDeclared where
  isSome declared hmem := by
    obtain ⟨entry, -, hdeclared⟩ := List.mem_flatMap.1 hmem
    obtain ⟨place, horigin⟩ := origin_of_mem_everyDeclared hdeclared
    rw [horigin, Option.isSome_some]
  unique left hleft right hright heq :=
    List.inj_on_of_nodup_map (List.pairwise_map.2 hsound.pairwise_origin) hleft hright heq

theorem Sound.identified {store : SymbolStore} (hsound : store.Sound) :
    Declared.Identified store.declarations :=
  hsound.identified_all.subset store.declarations_subset

/-! ## Taking away and putting in -/

theorem isOrdered_unindex {index : NameIndex Declared} (hordered : index.IsOrdered)
    (gone : List Declared) : (gone.foldl unindex index).IsOrdered := by
  induction gone generalizing index with
  | nil => exact hordered
  | cons declared rest ih => exact ih (hordered.remove _ _)

/-- Declarations that are taken from the index are gone from under all of their keys. -/
theorem mem_under_unindex {index : NameIndex Declared} (hordered : index.IsOrdered)
    (gone : List Declared) (key : String) (declared : Declared) :
    declared ∈ (gone.foldl unindex index).under key ↔
      declared ∈ index.under key ∧
        ∀ other ∈ gone, ¬ (key ∈ keysOf other ∧ other.same declared = true) := by
  induction gone generalizing index with
  | nil => simp
  | cons first rest ih =>
      have hnext : (unindex index first).IsOrdered := hordered.remove _ _
      rw [List.foldl_cons, ih hnext, unindex, NameIndex.mem_under_remove hordered,
        List.forall_mem_cons, and_assoc]

theorem isOrdered_addAll {index : NameIndex Declared} (hordered : index.IsOrdered)
    (new : List Declared) : (index.addAll keysOf new).IsOrdered := by
  rw [NameIndex.addAll]
  induction new generalizing index with
  | nil => exact hordered
  | cons declared rest ih => exact ih (hordered.add _ _)

/-- Declarations that are put in the index are found under all of their keys. -/
theorem mem_under_addAll {index : NameIndex Declared} (hordered : index.IsOrdered)
    (new : List Declared) (key : String) (declared : Declared) :
    declared ∈ (index.addAll keysOf new).under key ↔
      declared ∈ index.under key ∨ declared ∈ new ∧ key ∈ keysOf declared := by
  rw [NameIndex.addAll]
  induction new generalizing index with
  | nil => simp
  | cons first rest ih =>
      rw [List.foldl_cons, ih (hordered.add _ _), NameIndex.mem_under_add hordered,
        List.mem_cons]
      constructor
      · rintro ((hold | ⟨hkey, rfl⟩) | ⟨hmem, hkey⟩)
        · exact Or.inl hold
        · exact Or.inr ⟨Or.inl rfl, hkey⟩
        · exact Or.inr ⟨Or.inr hmem, hkey⟩
      · rintro (hold | ⟨rfl | hmem, hkey⟩)
        · exact Or.inl (Or.inl hold)
        · exact Or.inl (Or.inr ⟨hkey, rfl⟩)
        · exact Or.inr ⟨hmem, hkey⟩

/-- The declarations of the tables that stay, once one was taken away. -/
theorem Sound.mem_declarations_remove {store : SymbolStore} (hsound : store.Sound)
    {uri : String} {entry : ResidentTable} (hentry : store.resident? uri = some entry)
    (declared : Declared) :
    declared ∈ (store.remove uri).declarations ↔
      declared ∈ store.declarations ∧ declared ∉ indexed entry := by
  have hheld : store.holds uri entry = true := List.find?_some hentry
  have hmem : entry ∈ store.resident := List.mem_of_find?_eq_some hentry
  rw [declarations, declarations, resident_remove, List.mem_flatMap, List.mem_flatMap]
  constructor
  · rintro ⟨other, hother, hdeclared⟩
    have hold := List.mem_of_mem_eraseP hother
    refine ⟨⟨other, hold, hdeclared⟩, fun hentry' => ?_⟩
    -- A declaration of two tables would give them one number, hence one place.
    obtain ⟨place, horigin⟩ := origin_of_mem_indexed hdeclared
    obtain ⟨place', horigin'⟩ := origin_of_mem_indexed hentry'
    rw [horigin] at horigin'
    have hsame : other = entry :=
      List.inj_on_of_nodup_map (List.pairwise_map.2 hsound.numbered) hold hmem
        (congrArg Origin.table (Option.some.inj horigin'))
    have hnone := hsound.once.find?_eraseP_self uri
    exact List.find?_eq_none.1 hnone other hother (hsame ▸ hheld)
  · rintro ⟨⟨other, hother, hdeclared⟩, hgone⟩
    refine ⟨other, ?_, hdeclared⟩
    have hne : ¬ store.holds uri other = true := by
      intro hholds
      have hfound := hsound.once.find?_eq_some_of_mem hother hholds
      rw [← resident?, hentry, Option.some_inj] at hfound
      exact hgone (hfound ▸ hdeclared)
    exact (List.mem_eraseP_of_neg hne).2 hother

/-- After a table was taken away the index holds what the others declare. -/
theorem Sound.mem_under_remove {store : SymbolStore} (hsound : store.Sound)
    {uri : String} {entry : ResidentTable} (hentry : store.resident? uri = some entry)
    (key : String) (declared : Declared) :
    declared ∈ (store.remove uri).index.under key ↔
      declared ∈ (store.remove uri).declarations ∧ key ∈ keysOf declared := by
  have hindex : (store.remove uri).index = (indexed entry).foldl unindex store.index := by
    rw [SymbolStore.remove, hentry]
  have hdeclared : ∀ other ∈ indexed entry, other ∈ store.declarations := by
    intro other hother
    exact List.mem_flatMap.2 ⟨entry, List.mem_of_find?_eq_some hentry, hother⟩
  rw [hindex, mem_under_unindex hsound.ordered, hsound.exact,
    hsound.mem_declarations_remove hentry]
  constructor
  · rintro ⟨⟨hold, hkey⟩, hgone⟩
    have hout : declared ∉ indexed entry := by
      intro hin
      exact hgone declared hin ⟨hkey, (hsound.identified.same_iff_eq hold hold).2 rfl⟩
    exact ⟨⟨hold, hout⟩, hkey⟩
  · rintro ⟨⟨hold, hout⟩, hkey⟩
    constructor
    · exact ⟨hold, hkey⟩
    · rintro other hother ⟨-, hsame⟩
      have heq := (hsound.identified.same_iff_eq (hdeclared other hother) hold).1 hsame
      exact hout (heq ▸ hother)

theorem Sound.remove {store : SymbolStore} (hsound : store.Sound) (uri : String) :
    (store.remove uri).Sound where
  once := by
    rw [holds_remove, resident_remove]
    exact hsound.once.eraseP _
  numbered := by
    rw [resident_remove]
    exact hsound.numbered.sublist List.eraseP_sublist
  below := by
    intro entry hentry
    rw [resident_remove] at hentry
    rw [nextNumber_remove]
    exact hsound.below entry (List.mem_of_mem_eraseP hentry)
  ordered := by
    rw [SymbolStore.remove]
    split
    · exact hsound.ordered
    · exact isOrdered_unindex hsound.ordered _
  exact := by
    intro key declared
    cases hentry : store.resident? uri with
    | none =>
        have hself : store.remove uri = store := by rw [SymbolStore.remove, hentry]
        rw [hself]
        exact hsound.exact key declared
    | some entry => exact hsound.mem_under_remove hentry key declared

theorem Sound.add {store : SymbolStore} (hsound : store.Sound) (table : SymbolTable) :
    (store.add table).Sound := by
  have hleft := hsound.remove table.uri
  have hresident : (store.add table).resident =
      (store.remove table.uri).resident ++ [⟨store.nextNumber, table⟩] := by
    simp [SymbolStore.add]
  have hbelow : ∀ entry ∈ (store.remove table.uri).resident,
      entry.number < store.nextNumber := by
    simpa using hleft.below
  exact {
    once := by
      rw [holds_add, hresident, ← holds_remove store table.uri]
      apply hleft.once.concat
      intro name hname
      rw [← uri_of_holds hname, holds_remove, resident_remove]
      exact hsound.once.find?_eraseP_self table.uri
    numbered := by
      have hnew : ∀ entry ∈ (store.remove table.uri).resident,
          ∀ new ∈ [(⟨store.nextNumber, table⟩ : ResidentTable)],
            entry.number ≠ new.number := by
        intro entry hentry new hnew
        rw [List.mem_singleton.1 hnew]
        exact Nat.ne_of_lt (hbelow entry hentry)
      rw [hresident]
      exact List.pairwise_append.2 ⟨hleft.numbered, List.pairwise_singleton _ _, hnew⟩
    below := by
      have hnumber : (store.add table).nextNumber = store.nextNumber + 1 := by
        simp [SymbolStore.add]
      intro entry hentry
      rw [hresident, List.mem_append, List.mem_singleton] at hentry
      rw [hnumber]
      rcases hentry with hentry | rfl
      · exact Nat.lt_succ_of_lt (hbelow entry hentry)
      · exact Nat.lt_succ_self _
    ordered := isOrdered_addAll hleft.ordered _
    exact := by
      intro key declared
      have hindex : (store.add table).index = (store.remove table.uri).index.addAll keysOf
          (indexed ⟨store.nextNumber, table⟩) := by
        simp [SymbolStore.add]
      have hdeclarations : (store.add table).declarations =
          (store.remove table.uri).declarations ++ indexed ⟨store.nextNumber, table⟩ := by
        simp [declarations, hresident]
      rw [hindex, mem_under_addAll hleft.ordered, hleft.exact, hdeclarations,
        List.mem_append, or_and_right] }

theorem sound_empty (hashOf : String → UInt64) : Sound { hashOf := hashOf } where
  once := List.Pairwise.nil
  numbered := List.Pairwise.nil
  below := by simp
  ordered := NameIndex.isOrdered_empty
  exact := by
    intro key declared
    constructor
    · intro hmem
      exact absurd hmem List.not_mem_nil
    · rintro ⟨hmem, -⟩
      exact absurd hmem List.not_mem_nil

/-! ## The table of a document -/

theorem get?_remove {store : SymbolStore} (hsound : store.Sound) (uri other : String) :
    (store.remove uri).get? other = if other = uri then none else store.get? other := by
  rw [get?, get?, resident?, resident?, holds_remove, resident_remove]
  by_cases heq : other = uri
  · rw [if_pos heq, heq, hsound.once.find?_eraseP_self, Option.map_none]
  · rw [if_neg heq, find?_eraseP_of_ne store.holds (fun _ _ => uri_of_holds) heq]

/-- A table put in is found when it is filed under the digest of its own name. -/
theorem get?_add {store : SymbolStore} (hsound : store.Sound) {table : SymbolTable}
    (hhash : table.hash = store.hashOf table.uri) (uri : String) :
    (store.add table).get? uri = if uri = table.uri then some table else store.get? uri := by
  have hleft := get?_remove hsound table.uri uri
  rw [get?, resident?, holds_remove, resident_remove] at hleft
  rw [get?, resident?, holds_add, resident_add, find?_concat]
  by_cases heq : uri = table.uri
  · have hholds : store.holds uri ⟨store.nextNumber, table⟩ = true := by
      simp [holds, heq, hhash]
    rw [if_pos heq, heq, hsound.once.find?_eraseP_self, ← heq, if_pos hholds,
      Option.none_or, Option.map_some]
  · have hholds : ¬ store.holds uri ⟨store.nextNumber, table⟩ = true := by
      intro h
      exact heq (uri_of_holds h).symm
    rw [if_neg heq] at hleft ⊢
    rw [if_neg hholds, Option.or_none, hleft]

theorem uri_of_get? {store : SymbolStore} {uri : String} {table : SymbolTable}
    (hfound : store.get? uri = some table) : table.uri = uri := by
  obtain ⟨entry, hentry, rfl⟩ := Option.map_eq_some_iff.1 hfound
  exact uri_of_holds (List.find?_some hentry)

theorem mem_tables_of_get? {store : SymbolStore} {uri : String} {table : SymbolTable}
    (hfound : store.get? uri = some table) : table ∈ store.tables := by
  obtain ⟨entry, hentry, rfl⟩ := Option.map_eq_some_iff.1 hfound
  exact List.mem_map_of_mem (List.mem_of_find?_eq_some hentry)

/-! ## Filing under the digest -/

/-- Every resident table is filed under the digest of its own name. -/
def Filed (store : SymbolStore) : Prop :=
  ∀ table ∈ store.tables, table.hash = store.hashOf table.uri

theorem filed_empty (hashOf : String → UInt64) : Filed { hashOf := hashOf } := by
  intro table hmem
  exact absurd hmem List.not_mem_nil

theorem Filed.remove {store : SymbolStore} (hfiled : store.Filed) (uri : String) :
    (store.remove uri).Filed := by
  intro table hmem
  obtain ⟨entry, hentry, rfl⟩ := List.mem_map.1 hmem
  rw [resident_remove] at hentry
  rw [hashOf_remove]
  exact hfiled entry.table (List.mem_map_of_mem (List.mem_of_mem_eraseP hentry))

/-- A table that is filed under the digest of its name may be added. -/
theorem Filed.add {store : SymbolStore} (hfiled : store.Filed) {table : SymbolTable}
    (hhash : table.hash = store.hashOf table.uri) : (store.add table).Filed := by
  intro other hmem
  obtain ⟨entry, hentry, rfl⟩ := List.mem_map.1 hmem
  rw [resident_add, List.mem_append, List.mem_singleton] at hentry
  rw [hashOf_add]
  rcases hentry with hentry | rfl
  · exact hfiled entry.table (List.mem_map_of_mem (List.mem_of_mem_eraseP hentry))
  · exact hhash

/-- Each resident table is the one found for its document. -/
theorem Filed.get?_of_mem {store : SymbolStore} (hfiled : store.Filed)
    (hsound : store.Sound) {table : SymbolTable} (hmem : table ∈ store.tables) :
    store.get? table.uri = some table := by
  obtain ⟨entry, hentry, rfl⟩ := List.mem_map.1 hmem
  have hholds : store.holds entry.table.uri entry = true := by
    simp [holds, hfiled entry.table hmem]
  rw [get?, resident?, hsound.once.find?_eq_some_of_mem hentry hholds, Option.map_some]

end SymbolIndex.SymbolStore
