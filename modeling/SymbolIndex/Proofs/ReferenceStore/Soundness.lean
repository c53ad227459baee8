import SymbolIndex.Proofs.Filing
import SymbolIndex.Proofs.NameIndex
import SymbolIndex.ReferenceStore

/-!
# Soundness of reference stores

A reference store holds open tables, summaries, and an index from the names in
the summaries to the summaries.  It is sound when no document has two open
tables or two summaries, the index names listed summaries only, and the summary
that is found for a document is indexed under all of its names.  Nothing is
assumed of the tables that are put in, not even that they are filed under the
digest of their own name.
-/

namespace SymbolIndex.ReferenceStore

structure Sound (store : ReferenceStore) : Prop where
  openedOnce : FiledOnce store.holdsTable store.opened
  summariesOnce : FiledOnce store.holdsSummary store.summaries
  ordered : store.index.IsOrdered
  listed : ∀ key summary, summary ∈ store.index.under key →
    summary ∈ store.summaries ∧ key ∈ summary.identifiers
  indexed : ∀ uri summary, store.summary? uri = some summary →
    ∀ key ∈ summary.identifiers, summary ∈ store.index.under key

/-! ## Holding -/

theorem uri_of_holdsTable {store : ReferenceStore} {uri : String}
    {table : ReferenceTable} (hholds : store.holdsTable uri table = true) :
    table.uri = uri := by
  simp only [holdsTable, Bool.and_eq_true, beq_iff_eq] at hholds
  exact hholds.2

theorem uri_of_holdsSummary {store : ReferenceStore} {uri : String}
    {summary : ReferenceSummary} (hholds : store.holdsSummary uri summary = true) :
    summary.uri = uri := by
  simp only [holdsSummary, Bool.and_eq_true, beq_iff_eq] at hholds
  exact hholds.2

theorem uri_of_summary? {store : ReferenceStore} {uri : String}
    {summary : ReferenceSummary} (hfound : store.summary? uri = some summary) :
    summary.uri = uri :=
  uri_of_holdsSummary (List.find?_some hfound)

theorem uri_of_get? {store : ReferenceStore} {uri : String} {table : ReferenceTable}
    (hfound : store.get? uri = some table) : table.uri = uri :=
  uri_of_holdsTable (List.find?_some hfound)

/-! ## The single changes -/

theorem Sound.takeOpen {store : ReferenceStore} (hsound : store.Sound) (uri : String) :
    (store.takeOpen uri).Sound where
  openedOnce := hsound.openedOnce.eraseP _
  summariesOnce := hsound.summariesOnce
  ordered := hsound.ordered
  listed := hsound.listed
  indexed := hsound.indexed

/-- What is taken out is not open any more, and all else is. -/
theorem get?_takeOpen {store : ReferenceStore} (hsound : store.Sound) (uri other : String) :
    (store.takeOpen uri).get? other = if other = uri then none else store.get? other := by
  by_cases heq : other = uri
  · rw [if_pos heq, heq]
    exact hsound.openedOnce.find?_eraseP_self uri
  · rw [if_neg heq]
    exact find?_eraseP_of_ne store.holdsTable (fun _ _ => uri_of_holdsTable) heq _

@[simp]
theorem hashOf_removeSummary (store : ReferenceStore) (uri : String) :
    (store.removeSummary uri).hashOf = store.hashOf := by
  rw [removeSummary]
  split <;> rfl

@[simp]
theorem opened_removeSummary (store : ReferenceStore) (uri : String) :
    (store.removeSummary uri).opened = store.opened := by
  rw [removeSummary]
  split <;> rfl

theorem holdsSummary_removeSummary (store : ReferenceStore) (uri : String) :
    (store.removeSummary uri).holdsSummary = store.holdsSummary := by
  funext other summary
  simp [holdsSummary]

theorem holdsTable_removeSummary (store : ReferenceStore) (uri : String) :
    (store.removeSummary uri).holdsTable = store.holdsTable := by
  funext other table
  simp [holdsTable]

@[simp]
theorem get?_removeSummary (store : ReferenceStore) (uri other : String) :
    (store.removeSummary uri).get? other = store.get? other := by
  rw [get?, get?, opened_removeSummary, holdsTable_removeSummary]

theorem summaries_removeSummary (store : ReferenceStore) (uri : String) :
    (store.removeSummary uri).summaries = store.summaries.eraseP (store.holdsSummary uri) := by
  rw [removeSummary]
  split
  · rename_i hnone
    exact (List.eraseP_of_forall_not (List.find?_eq_none.1 hnone)).symm
  · rfl

/-- A summary that is removed is gone, and all others stay. -/
theorem summary?_removeSummary {store : ReferenceStore} (hsound : store.Sound)
    (uri other : String) :
    (store.removeSummary uri).summary? other =
      if other = uri then none else store.summary? other := by
  rw [summary?, holdsSummary_removeSummary, summaries_removeSummary]
  by_cases heq : other = uri
  · rw [if_pos heq, heq]
    exact hsound.summariesOnce.find?_eraseP_self uri
  · rw [if_neg heq]
    exact find?_eraseP_of_ne store.holdsSummary (fun _ _ => uri_of_holdsSummary) heq _

/-- A summary that is removed is not found under its names any more. -/
theorem mem_under_removeSummary {store : ReferenceStore} (hsound : store.Sound)
    (uri key : String) (summary : ReferenceSummary) :
    summary ∈ (store.removeSummary uri).index.under key ↔
      summary ∈ store.index.under key ∧
        ∀ old, store.summary? uri = some old →
          ¬ (key ∈ old.identifiers ∧ summary.uri = uri) := by
  rw [removeSummary]
  cases hold : store.summary? uri with
  | none => simp
  | some old => simp [NameIndex.mem_under_remove hsound.ordered]

theorem Sound.removeSummary {store : ReferenceStore} (hsound : store.Sound)
    (uri : String) : (store.removeSummary uri).Sound where
  openedOnce := by
    rw [holdsTable_removeSummary, opened_removeSummary]
    exact hsound.openedOnce
  summariesOnce := by
    rw [holdsSummary_removeSummary, summaries_removeSummary]
    exact hsound.summariesOnce.eraseP _
  ordered := by
    rw [ReferenceStore.removeSummary]
    split
    · exact hsound.ordered
    · exact hsound.ordered.remove _ _
  listed := by
    intro key summary hmem
    obtain ⟨hunder, hgone⟩ := (mem_under_removeSummary hsound uri key summary).1 hmem
    obtain ⟨hlisted, hkey⟩ := hsound.listed key summary hunder
    refine ⟨?_, hkey⟩
    rw [summaries_removeSummary]
    -- The summary taken away left the index under all of its names, so this is another.
    have hother : ¬ store.holdsSummary uri summary = true := by
      intro hholds
      have hfound := hsound.summariesOnce.find?_eq_some_of_mem hlisted hholds
      exact hgone summary hfound ⟨hkey, uri_of_holdsSummary hholds⟩
    exact (List.mem_eraseP_of_neg hother).2 hlisted
  indexed := by
    intro other summary hfound key hkey
    rw [summary?_removeSummary hsound] at hfound
    split at hfound
    · cases hfound
    · rename_i hne
      refine (mem_under_removeSummary hsound uri key summary).2
        ⟨hsound.indexed other summary hfound key hkey, ?_⟩
      rintro old - ⟨-, huri⟩
      exact hne ((uri_of_summary? hfound).symm.trans huri)

@[simp]
theorem hashOf_addSummary (store : ReferenceStore) (summary : ReferenceSummary) :
    (store.addSummary summary).hashOf = store.hashOf := by
  simp [addSummary]

@[simp]
theorem opened_addSummary (store : ReferenceStore) (summary : ReferenceSummary) :
    (store.addSummary summary).opened = store.opened := by
  simp [addSummary]

theorem holdsTable_addSummary (store : ReferenceStore) (summary : ReferenceSummary) :
    (store.addSummary summary).holdsTable = store.holdsTable := by
  funext uri table
  simp [holdsTable]

theorem holdsSummary_addSummary (store : ReferenceStore) (summary : ReferenceSummary) :
    (store.addSummary summary).holdsSummary = store.holdsSummary := by
  funext uri other
  simp [holdsSummary]

@[simp]
theorem get?_addSummary (store : ReferenceStore) (summary : ReferenceSummary)
    (uri : String) : (store.addSummary summary).get? uri = store.get? uri := by
  rw [get?, get?, opened_addSummary, holdsTable_addSummary]

theorem summaries_addSummary (store : ReferenceStore) (summary : ReferenceSummary) :
    (store.addSummary summary).summaries =
      store.summaries.eraseP (store.holdsSummary summary.uri) ++ [summary] := by
  simp [addSummary, summaries_removeSummary]

/-- A summary of whatever digest takes the place of the one found for its
document, and is found itself only under its own digest. -/
theorem summary?_addSummary_eq {store : ReferenceStore} (hsound : store.Sound)
    (summary : ReferenceSummary) (uri : String) :
    (store.addSummary summary).summary? uri =
      if uri = summary.uri then
        (if summary.hash = store.hashOf uri then some summary else none)
      else store.summary? uri := by
  have hleft := summary?_removeSummary hsound summary.uri uri
  rw [summary?, holdsSummary_removeSummary, summaries_removeSummary] at hleft
  rw [summary?, holdsSummary_addSummary, summaries_addSummary, find?_concat, hleft]
  by_cases heq : uri = summary.uri
  · by_cases hhash : summary.hash = store.hashOf uri
    · simp [holdsSummary, heq, heq ▸ hhash]
    · simp [holdsSummary, heq, heq ▸ hhash]
  · have hholds : ¬ store.holdsSummary uri summary = true := by
      intro h
      exact heq (uri_of_holdsSummary h).symm
    rw [if_neg heq, if_neg heq, if_neg hholds, Option.or_none]

/-- A summary that is added takes the place of the old one, and all others stay. -/
theorem summary?_addSummary {store : ReferenceStore} (hsound : store.Sound)
    {summary : ReferenceSummary} (hhash : summary.hash = store.hashOf summary.uri)
    (uri : String) :
    (store.addSummary summary).summary? uri =
      if uri = summary.uri then some summary else store.summary? uri := by
  rw [summary?_addSummary_eq hsound]
  by_cases heq : uri = summary.uri
  · rw [if_pos heq, if_pos heq, if_pos (heq ▸ hhash)]
  · rw [if_neg heq, if_neg heq]

theorem Sound.addSummary {store : ReferenceStore} (hsound : store.Sound)
    (summary : ReferenceSummary) : (store.addSummary summary).Sound := by
  have hleft := hsound.removeSummary summary.uri
  have hunder : ∀ key other, other ∈ (store.addSummary summary).index.under key ↔
      other ∈ (store.removeSummary summary.uri).index.under key ∨
        key ∈ summary.identifiers ∧ other = summary := by
    intro key other
    rw [ReferenceStore.addSummary]
    exact NameIndex.mem_under_add hleft.ordered summary.identifiers summary other key
  exact {
    openedOnce := by
      rw [holdsTable_addSummary, opened_addSummary]
      exact hsound.openedOnce
    summariesOnce := by
      rw [holdsSummary_addSummary, summaries_addSummary]
      apply (hsound.summariesOnce.eraseP _).concat
      intro name hname
      rw [← uri_of_holdsSummary hname]
      exact hsound.summariesOnce.find?_eraseP_self summary.uri
    ordered := by
      rw [ReferenceStore.addSummary]
      exact hleft.ordered.add _ _
    listed := by
      intro key other hmem
      rw [summaries_addSummary, List.mem_append, ← summaries_removeSummary]
      rcases (hunder key other).1 hmem with hold | ⟨hkey, rfl⟩
      · obtain ⟨hlisted, hkey⟩ := hleft.listed key other hold
        exact ⟨Or.inl hlisted, hkey⟩
      · exact ⟨Or.inr (List.mem_singleton.2 rfl), hkey⟩
    indexed := by
      intro uri found hfound key hkey
      rw [summary?_addSummary_eq hsound] at hfound
      by_cases heq : uri = summary.uri
      · rw [if_pos heq] at hfound
        split at hfound
        · cases hfound
          exact (hunder key summary).2 (Or.inr ⟨hkey, rfl⟩)
        · cases hfound
      · rw [if_neg heq] at hfound
        have hold : (store.removeSummary summary.uri).summary? uri = some found := by
          rw [summary?_removeSummary hsound, if_neg heq, hfound]
        exact (hunder key found).2 (Or.inl (hleft.indexed uri found hold key hkey)) }

/-- A table may be held open again when no other is open for its document. -/
theorem Sound.putOpen {store : ReferenceStore} (hsound : store.Sound)
    {table : ReferenceTable} (hfree : store.get? table.uri = none) :
    (store.putOpen table).Sound where
  openedOnce := by
    apply hsound.openedOnce.concat
    intro name hname
    have huri : table.uri = name := by
      simp only [holdsTable, Bool.and_eq_true, beq_iff_eq] at hname
      exact hname.2
    exact huri ▸ hfree
  summariesOnce := hsound.summariesOnce
  ordered := hsound.ordered
  listed := hsound.listed
  indexed := hsound.indexed

/-- A table that is put among the open ones is open, and all else is as before. -/
theorem get?_putOpen {store : ReferenceStore} {table : ReferenceTable}
    (hfree : store.get? table.uri = none) (hhash : table.hash = store.hashOf table.uri)
    (uri : String) :
    (store.putOpen table).get? uri = if uri = table.uri then some table else store.get? uri := by
  have hput : (store.putOpen table).get? uri =
      (store.opened ++ [table]).find? (store.holdsTable uri) := rfl
  rw [hput, find?_concat, ← get?]
  by_cases heq : uri = table.uri
  · have hholds : store.holdsTable uri table = true := by simp [holdsTable, heq, hhash]
    rw [if_pos heq, if_pos hholds, heq, hfree, Option.none_or]
  · have hholds : ¬ store.holdsTable uri table = true := by
      intro h
      exact heq (uri_of_holdsTable h).symm
    rw [if_neg heq, if_neg hholds, Option.or_none]

/-! ## The operations -/

theorem sound_new (window : Nat) (hashOf : String → UInt64) :
    Sound { new window with hashOf := hashOf } where
  openedOnce := List.Pairwise.nil
  summariesOnce := List.Pairwise.nil
  ordered := NameIndex.isOrdered_empty
  listed := fun _ _ hmem => absurd hmem List.not_mem_nil
  indexed := fun _ _ hfound => absurd hfound (by simp [summary?, new])

theorem get?_takeOpen_self {store : ReferenceStore} (hsound : store.Sound) (uri : String) :
    (store.takeOpen uri).get? uri = none := by
  rw [get?_takeOpen hsound, if_pos rfl]

theorem Sound.add {store : ReferenceStore} (hsound : store.Sound)
    (table : ReferenceTable) : (store.add table).Sound := by
  apply ((hsound.takeOpen table.uri).addSummary table.summary).putOpen
  rw [get?_addSummary, get?_takeOpen_self hsound]

/-- A table that is added is open, and all else is as before. -/
theorem get?_add {store : ReferenceStore} (hsound : store.Sound) {table : ReferenceTable}
    (hhash : table.hash = store.hashOf table.uri) (uri : String) :
    (store.add table).get? uri = if uri = table.uri then some table else store.get? uri := by
  have hfree : ((store.takeOpen table.uri).addSummary table.summary).get? table.uri = none := by
    rw [get?_addSummary, get?_takeOpen_self hsound]
  rw [ReferenceStore.add, get?_putOpen hfree (by simpa [takeOpen] using hhash),
    get?_addSummary, get?_takeOpen hsound]
  split <;> rfl

/-- A table that is added, under whatever digest, leaves those of other documents alone. -/
theorem get?_add_of_ne {store : ReferenceStore} (hsound : store.Sound) {table : ReferenceTable}
    {uri : String} (hne : uri ≠ table.uri) : (store.add table).get? uri = store.get? uri := by
  let left := (store.takeOpen table.uri).addSummary table.summary
  have hput : (store.add table).get? uri =
      (left.opened ++ [table]).find? (left.holdsTable uri) := rfl
  have hother : ¬left.holdsTable uri table = true :=
    fun hholds => hne (uri_of_holdsTable hholds).symm
  rw [hput, find?_concat, if_neg hother, Option.or_none, ← get?, get?_addSummary,
    get?_takeOpen hsound, if_neg hne]

/-- A table that is added is known by its summary. -/
theorem summary?_add {store : ReferenceStore} (hsound : store.Sound)
    {table : ReferenceTable} (hhash : table.hash = store.hashOf table.uri) (uri : String) :
    (store.add table).summary? uri =
      if uri = table.uri then some table.summary else store.summary? uri :=
  summary?_addSummary (hsound.takeOpen table.uri) hhash uri

@[simp]
theorem hashOf_add (store : ReferenceStore) (table : ReferenceTable) :
    (store.add table).hashOf = store.hashOf :=
  hashOf_addSummary (store.takeOpen table.uri) table.summary

theorem Sound.remove {store : ReferenceStore} (hsound : store.Sound) (uri : String) :
    (store.remove uri).Sound :=
  (hsound.takeOpen uri).removeSummary uri

theorem get?_remove {store : ReferenceStore} (hsound : store.Sound) (uri other : String) :
    (store.remove uri).get? other = if other = uri then none else store.get? other := by
  rw [ReferenceStore.remove, get?_removeSummary, get?_takeOpen hsound]

theorem summary?_remove {store : ReferenceStore} (hsound : store.Sound)
    (uri other : String) :
    (store.remove uri).summary? other =
      if other = uri then none else store.summary? other :=
  summary?_removeSummary (hsound.takeOpen uri) uri other

@[simp]
theorem hashOf_remove (store : ReferenceStore) (uri : String) :
    (store.remove uri).hashOf = store.hashOf :=
  hashOf_removeSummary (store.takeOpen uri) uri

/-- Whether or not the table can be written, closing leaves a sound store. -/
theorem Sound.close {σ : Type} [ByteStore σ] {store : ReferenceStore}
    (hsound : store.Sound) (cache : σ) (uri : String) :
    (store.close cache uri).store.Sound := by
  rw [ReferenceStore.close]
  split
  · exact hsound
  · rename_i table hfound
    have hleft := hsound.takeOpen uri
    dsimp only
    split
    · exact hleft
    · apply hleft.putOpen
      rw [uri_of_get? hfound, get?_takeOpen_self hsound]

@[simp]
theorem hashOf_close {σ : Type} [ByteStore σ] (store : ReferenceStore) (cache : σ)
    (uri : String) : (store.close cache uri).store.hashOf = store.hashOf := by
  rw [ReferenceStore.close]
  split
  · rfl
  · dsimp only
    split <;> rfl

/-! ## Filing under the digest -/

/-- Every open table is filed under the digest of its own name. -/
def Filed (store : ReferenceStore) : Prop :=
  ∀ table ∈ store.opened, table.hash = store.hashOf table.uri

theorem Filed.takeOpen {store : ReferenceStore} (hfiled : store.Filed) (uri : String) :
    (store.takeOpen uri).Filed := by
  intro table hmem
  exact hfiled table (List.mem_of_mem_eraseP hmem)

theorem Filed.removeSummary {store : ReferenceStore} (hfiled : store.Filed)
    (uri : String) : (store.removeSummary uri).Filed := by
  intro table hmem
  rw [opened_removeSummary] at hmem
  rw [hashOf_removeSummary]
  exact hfiled table hmem

theorem Filed.addSummary {store : ReferenceStore} (hfiled : store.Filed)
    (summary : ReferenceSummary) : (store.addSummary summary).Filed := by
  intro table hmem
  rw [opened_addSummary] at hmem
  rw [hashOf_addSummary]
  exact hfiled table hmem

/-- A table that is filed under the digest of its name may be added. -/
theorem Filed.add {store : ReferenceStore} (hfiled : store.Filed) {table : ReferenceTable}
    (hhash : table.hash = store.hashOf table.uri) : (store.add table).Filed := by
  have hleft := (hfiled.takeOpen table.uri).addSummary table.summary
  intro other hmem
  rw [hashOf_add]
  rcases List.mem_append.1 hmem with hold | hnew
  · simpa [ReferenceStore.takeOpen] using hleft other hold
  · rw [List.mem_singleton.1 hnew]
    exact hhash

theorem Filed.remove {store : ReferenceStore} (hfiled : store.Filed) (uri : String) :
    (store.remove uri).Filed :=
  (hfiled.takeOpen uri).removeSummary uri

/-- Each open table is the one found for its document. -/
theorem Filed.get?_of_mem {store : ReferenceStore} (hfiled : store.Filed)
    (hsound : store.Sound) {table : ReferenceTable} (hmem : table ∈ store.opened) :
    store.get? table.uri = some table := by
  apply hsound.openedOnce.find?_eq_some_of_mem hmem
  simp [holdsTable, hfiled table hmem]

end SymbolIndex.ReferenceStore
