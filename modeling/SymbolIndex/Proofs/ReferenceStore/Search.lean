import Mathlib
import SymbolIndex.Cache.Memory
import SymbolIndex.Proofs.ReferenceStore.Soundness
import SymbolIndex.Proofs.SortedDistinct
import SymbolIndex.Proofs.Text.Casing

/-!
# Search in a reference store

A search for the uses of a name fetches only the tables whose summary lists the
name.  This loses nothing: a reference that goes by the name, whichever way
names of its kind are compared, puts the lower-cased name into the summary of
its table, and the index leads from there to the document.  Neither the order
in which the tables arrive nor the number fetched at a time shows in the answer.
-/

namespace SymbolIndex

open SymbolIndex.Text

/-! ## Summaries -/

/-- A reference that has a name has it among its names, up to case. -/
theorem Reference.lower_mem_of_isNamed {reference : Reference} {name : String}
    (hnamed : reference.isNamed name = true) :
    ∃ candidate ∈ reference.names, lower candidate = lower name := by
  rw [Reference.isNamed, List.any_eq_true] at hnamed
  obtain ⟨candidate, hmem, hsame⟩ := hnamed
  refine ⟨candidate, hmem, ?_⟩
  split at hsame
  · rw [beq_iff_eq.1 hsame]
  · exact lower_eq_of_eqIgnoringCase hsame

/-- A summary lists every name by which a reference other than a variable goes. -/
theorem ReferenceTable.lower_mem_summary {table : ReferenceTable} {reference : Reference}
    (hmem : reference ∈ table.references) (hkind : reference.kind.isVariable = false)
    {name : String} (hname : name ≠ "") (hnamed : reference.isNamed name = true) :
    lower name ∈ table.summary.identifiers := by
  obtain ⟨candidate, hcandidate, hlower⟩ := Reference.lower_mem_of_isNamed hnamed
  rw [summary, List.mem_eraseDups, List.mem_filter, List.mem_map]
  refine ⟨⟨candidate, ?_, hlower⟩, by simpa using lower_ne_empty hname⟩
  exact List.mem_flatMap.2
    ⟨reference, List.mem_filter.2 ⟨hmem, by simp [hkind]⟩, hcandidate⟩

namespace ReferenceStore

/-! ## Reachable stores -/

/-- The stores that the operations lead to, whatever tables and caches they are
given and under whatever digest documents are filed. -/
inductive Reachable : ReferenceStore → Prop
  | new (window : Nat) (hashOf : String → UInt64) :
      Reachable { new window with hashOf := hashOf }
  | add {store : ReferenceStore} (table : ReferenceTable) :
      Reachable store → Reachable (store.add table)
  | addSummary {store : ReferenceStore} (summary : ReferenceSummary) :
      Reachable store → Reachable (store.addSummary summary)
  | remove {store : ReferenceStore} (uri : String) :
      Reachable store → Reachable (store.remove uri)
  | close {σ : Type} [ByteStore σ] {store : ReferenceStore} (cache : σ) (uri : String) :
      Reachable store → Reachable (store.close cache uri).store

theorem Reachable.sound {store : ReferenceStore} (hreachable : store.Reachable) :
    store.Sound := by
  induction hreachable with
  | new window hashOf => exact sound_new window hashOf
  | add table _ ih => exact ih.add table
  | addSummary summary _ ih => exact ih.addSummary summary
  | remove uri _ ih => exact ih.remove uri
  | close cache uri _ ih => exact ih.close cache uri

/-! ## Searching all documents -/

/-- The documents with a summary, in order. -/
def known (store : ReferenceStore) : List String :=
  sortedDistinct (store.summaries.map (·.uri))

/-- The references of a table to a name for which `p` holds. -/
def usesIn (name : String) (p : Reference → Bool) (table : ReferenceTable) :
    List Reference :=
  table.references.filter fun reference => reference.isNamed name && p reference

/-- The tables in the order of their documents. -/
def inOrder (tables : List ReferenceTable) : List ReferenceTable :=
  tables.mergeSort fun left right => decide (left.uri ≤ right.uri)

section

variable {σ : Type} [ByteStore σ]

/-- The search that fetches the table of every known document. -/
def scan (store : ReferenceStore) (cache : σ) (name : String) (p : Reference → Bool) :
    List Reference :=
  (store.known.filterMap (store.fetch? cache)).flatMap (usesIn name p)

/-- Every known document has a table, and the summary found for the document is
that table's. -/
def SummariesAgree (store : ReferenceStore) (cache : σ) : Prop :=
  ∀ uri ∈ store.known, ∃ table,
    store.fetch? cache uri = some table ∧ store.summary? uri = some table.summary

/-! ## Candidates -/

/-- A document whose summary lists the name is a candidate. -/
theorem mem_candidates {store : ReferenceStore} (hsound : store.Sound) {uri name : String}
    {summary : ReferenceSummary} (hsummary : store.summary? uri = some summary)
    (hkey : lower name ∈ summary.identifiers) : uri ∈ store.candidates name := by
  rw [candidates, mem_sortedDistinct, ← uri_of_summary? hsummary]
  exact List.mem_map_of_mem (hsound.indexed uri summary hsummary _ hkey)

theorem candidates_subset {store : ReferenceStore} (hsound : store.Sound) (name : String) :
    store.candidates name ⊆ store.known := by
  intro uri hmem
  rw [candidates, mem_sortedDistinct, List.mem_map] at hmem
  obtain ⟨summary, hsummary, rfl⟩ := hmem
  rw [NameIndex.find_eq_under] at hsummary
  rw [known, mem_sortedDistinct]
  exact List.mem_map_of_mem (hsound.listed _ summary hsummary).1

/-- The candidates are known documents, in the order of these. -/
theorem candidates_eq_filter {store : ReferenceStore} (hsound : store.Sound)
    (name : String) :
    store.candidates name =
      store.known.filter fun uri => decide (uri ∈ store.candidates name) := by
  have hknown := sortedDistinct_increasing (store.summaries.map (·.uri))
  have hcandidates :=
    sortedDistinct_increasing ((store.index.find name).map (·.uri))
  refine List.Perm.eq_of_pairwise ?_ hcandidates (hknown.filter _) ?_
  · intro left right _ _ hlt hgt
    exact absurd hgt (String.lt_asymm hlt)
  · apply (List.perm_ext_iff_of_nodup (sortedDistinct_nodup _)
      ((sortedDistinct_nodup _).filter _)).2
    intro uri
    rw [List.mem_filter, decide_eq_true_eq]
    exact ⟨fun hmem => ⟨candidates_subset hsound name hmem, hmem⟩, And.right⟩

/-- What is fetched for a document is its table. -/
theorem uri_of_fetch? {store : ReferenceStore} {cache : σ}
    (hagree : store.SummariesAgree cache) {uri : String} (hknown : uri ∈ store.known)
    {table : ReferenceTable} (hfetch : store.fetch? cache uri = some table) :
    table.uri = uri := by
  obtain ⟨found, hfound, hsummary⟩ := hagree uri hknown
  rw [hfetch, Option.some_inj] at hfound
  have huri := uri_of_summary? hsummary
  exact hfound ▸ huri

/-- A known document that is no candidate has nothing to contribute. -/
theorem usesIn_eq_nil {store : ReferenceStore} (hsound : store.Sound) {cache : σ}
    (hagree : store.SummariesAgree cache) {name : String} (hname : name ≠ "")
    {p : Reference → Bool}
    (hp : ∀ reference, reference.kind.isVariable = true → p reference = false)
    {uri : String} (hknown : uri ∈ store.known) (hout : uri ∉ store.candidates name)
    {table : ReferenceTable} (hfetch : store.fetch? cache uri = some table) :
    usesIn name p table = [] := by
  rw [usesIn, List.filter_eq_nil_iff]
  intro reference hmem hmatch
  obtain ⟨hnamed, hpassed⟩ := Bool.and_eq_true_iff.1 hmatch
  have hkind : reference.kind.isVariable = false := by
    rw [Bool.eq_false_iff]
    intro hvariable
    rw [hp reference hvariable] at hpassed
    cases hpassed
  obtain ⟨found, hfound, hsummary⟩ := hagree uri hknown
  rw [hfetch, Option.some_inj] at hfound
  subst hfound
  have hkey := ReferenceTable.lower_mem_summary hmem hkind hname hnamed
  exact hout (mem_candidates hsound hsummary hkey)

/-- Documents that are no candidates have no uses that the search would find. -/
theorem scan_eq_candidates {store : ReferenceStore} (hsound : store.Sound) {cache : σ}
    (hagree : store.SummariesAgree cache) {name : String} (hname : name ≠ "")
    {p : Reference → Bool}
    (hp : ∀ reference, reference.kind.isVariable = true → p reference = false) :
    store.scan cache name p =
      ((store.candidates name).filterMap (store.fetch? cache)).flatMap (usesIn name p) := by
  have houtside : ∀ uri ∈ store.known, uri ∉ store.candidates name →
      ∀ table, store.fetch? cache uri = some table → usesIn name p table = [] :=
    fun uri hknown hout table hfetch =>
      usesIn_eq_nil hsound hagree hname hp hknown hout hfetch
  rw [scan, candidates_eq_filter hsound name]
  generalize store.candidates name = candidates at houtside
  generalize store.known = known at houtside
  induction known with
  | nil => rfl
  | cons uri rest ih =>
      have hrest := ih fun other hmem => houtside other (List.mem_cons_of_mem _ hmem)
      by_cases hin : uri ∈ candidates
      · cases hfetch : store.fetch? cache uri <;> simp [hin, hfetch, hrest]
      · have hnil := houtside uri List.mem_cons_self hin
        cases hfetch : store.fetch? cache uri with
        | none => simp [hin, hfetch, hrest]
        | some table => simp [hin, hfetch, hrest, hnil table hfetch]

/-- A search finds the references to the name in the tables of the candidates. -/
theorem mem_find_iff {store : ReferenceStore} {cache : σ} {name : String}
    {p : Reference → Bool} {reference : Reference} :
    reference ∈ store.find cache name p ↔
      ∃ uri ∈ store.candidates name, ∃ table, store.fetch? cache uri = some table ∧
        reference ∈ usesIn name p table := by
  have hfetched : ∀ table, table ∈ (groupsOf store.window (store.candidates name)).flatMap
      (·.filterMap (store.fetch? cache)) ↔
        ∃ uri ∈ store.candidates name, store.fetch? cache uri = some table := by
    intro table
    rw [List.flatMap_def, ← List.filterMap_flatten, flatten_groupsOf, List.mem_filterMap]
  have hfind : reference ∈ store.find cache name p ↔
      ∃ table ∈ (groupsOf store.window (store.candidates name)).flatMap
        (·.filterMap (store.fetch? cache)), reference ∈ usesIn name p table := by
    rw [find, List.mem_flatMap]
    simp only [List.mem_mergeSort, usesIn]
  rw [hfind]
  constructor
  · rintro ⟨table, htable, huse⟩
    obtain ⟨uri, huri, hfetch⟩ := (hfetched table).1 htable
    exact ⟨uri, huri, table, hfetch, huse⟩
  · rintro ⟨uri, huri, table, hfetch, huse⟩
    exact ⟨table, (hfetched table).2 ⟨uri, huri, hfetch⟩, huse⟩

/-! ## Arrival -/

/-- However the tables of the candidates arrive, putting them in order gives
them in the order of the candidates. -/
theorem inOrder_of_perm {store : ReferenceStore} (hsound : store.Sound) {cache : σ}
    (hagree : store.SummariesAgree cache) (name : String) {arrived : List ReferenceTable}
    (hperm : arrived.Perm ((store.candidates name).filterMap (store.fetch? cache))) :
    inOrder arrived = (store.candidates name).filterMap (store.fetch? cache) := by
  have hincreasing : ((store.candidates name).filterMap (store.fetch? cache)).Pairwise
      fun left right => left.uri < right.uri := by
    rw [List.pairwise_filterMap]
    apply (sortedDistinct_increasing ((store.index.find name).map (·.uri))).imp_of_mem
    intro uri later hmem hlater hlt table htable other hother
    have hknown := candidates_subset hsound name
    rwa [uri_of_fetch? hagree (hknown hmem) htable,
      uri_of_fetch? hagree (hknown hlater) hother]
  have hdistinct : ∀ left ∈ arrived, ∀ right ∈ arrived, left.uri = right.uri → left = right := by
    intro left hleft right hright huri
    have hnodup := List.pairwise_map.2 (hincreasing.imp fun hlt => Std.ne_of_lt hlt)
    exact List.inj_on_of_nodup_map hnodup (hperm.subset hleft) (hperm.subset hright) huri
  have hsorted : (inOrder arrived).Pairwise fun left right => left.uri ≤ right.uri := by
    refine (List.pairwise_mergeSort ?_ ?_ arrived).imp fun h => by simpa using h
    · intro first second third h h'
      simp only [decide_eq_true_eq] at h h' ⊢
      exact Std.le_trans h h'
    · intro left right
      simpa using Std.le_total (a := left.uri) (b := right.uri)
  refine List.Perm.eq_of_pairwise ?_ hsorted (hincreasing.imp fun hlt => Std.le_of_lt hlt)
    ((List.mergeSort_perm arrived _).trans hperm)
  intro left right hleft hright hle hge
  exact hdistinct left ((List.mergeSort_perm arrived _).subset hleft) right
    (hperm.symm.subset hright) (String.le_antisymm hle hge)

/-- Narrowing a search to the documents whose summary lists the name gives the
references that fetching all known documents would give, in the same order,
whatever the window and in whatever order the fetched tables arrive. -/
theorem find_eq_scan {store : ReferenceStore} (hreachable : store.Reachable) {cache : σ}
    (hagree : store.SummariesAgree cache) {name : String} (hname : name ≠ "")
    {p : Reference → Bool}
    (hp : ∀ reference, reference.kind.isVariable = true → p reference = false) :
    store.find cache name p = store.scan cache name p ∧
      ∀ arrived, arrived.Perm ((store.candidates name).filterMap (store.fetch? cache)) →
        (inOrder arrived).flatMap (usesIn name p) = store.scan cache name p := by
  have hsound := hreachable.sound
  have harrived : ∀ arrived,
      arrived.Perm ((store.candidates name).filterMap (store.fetch? cache)) →
        (inOrder arrived).flatMap (usesIn name p) = store.scan cache name p := by
    intro arrived hperm
    rw [inOrder_of_perm hsound hagree name hperm, scan_eq_candidates hsound hagree hname hp]
  refine ⟨?_, harrived⟩
  have hgroups : (groupsOf store.window (store.candidates name)).flatMap
      (·.filterMap (store.fetch? cache)) =
        (store.candidates name).filterMap (store.fetch? cache) := by
    rw [List.flatMap_def, ← List.filterMap_flatten, flatten_groupsOf]
  have hfind : store.find cache name p =
      (inOrder ((groupsOf store.window (store.candidates name)).flatMap
        (·.filterMap (store.fetch? cache)))).flatMap (usesIn name p) := rfl
  rw [hfind, hgroups]
  exact harrived _ (List.Perm.refl _)

end

/-! ### An open table beside a closed one, all documents under one digest -/

/-- A table with references directly in the file. -/
def flatTable (uri : String) (uses : List (SymbolKind × String)) : ReferenceTable :=
  ⟨uri, 0, ⟨uri, default⟩, uses.map fun use =>
    .reference { kind := use.1, name := use.2, location := ⟨uri, default⟩ }⟩

def closedTable : ReferenceTable :=
  flatTable "a" [(.classType, "SHAPE")]

def openTable : ReferenceTable :=
  flatTable "b" [(.localVariable, "shape"), (.classType, "Shape")]

def mixedStore : ReferenceStore :=
  ({ new 1 with hashOf := fun _ => 0 }.addSummary closedTable.summary).add openTable

def mixedCache : MemoryCache :=
  (ByteStore.writeReferences MemoryCache.empty closedTable).after

theorem reachable_mixedStore : mixedStore.Reachable := by
  apply Reachable.add
  apply Reachable.addSummary
  exact Reachable.new 1 fun _ => 0

theorem summariesAgree_mixedStore : mixedStore.SummariesAgree mixedCache := by
  intro uri hknown
  have hsummaries : mixedStore.summaries = [closedTable.summary, openTable.summary] := rfl
  rw [known, mem_sortedDistinct, hsummaries, List.map_cons, List.map_singleton,
    List.mem_cons, List.mem_singleton] at hknown
  rcases hknown with rfl | rfl
  · have hread : (ByteStore.readReferences mixedCache "a").toOption.join =
        some closedTable := by
      cbv
    exact ⟨closedTable, hread, rfl⟩
  · exact ⟨openTable, rfl, rfl⟩

theorem find_eq_scan_mixedStore :
    let isGlobal := fun reference : Reference => !reference.kind.isVariable
    mixedStore.Reachable ∧ mixedStore.SummariesAgree mixedCache ∧ "shape" ≠ "" ∧
      (∀ reference, reference.kind.isVariable = true → isGlobal reference = false) ∧
      mixedStore.find mixedCache "shape" isGlobal =
        mixedStore.scan mixedCache "shape" isGlobal := by
  intro isGlobal
  have hname : "shape" ≠ "" := by decide
  have hp : ∀ reference : Reference, reference.kind.isVariable = true →
      isGlobal reference = false := by
    intro reference hvariable
    simp [isGlobal, hvariable]
  refine ⟨reachable_mixedStore, summariesAgree_mixedStore, hname, hp, ?_⟩
  exact (find_eq_scan reachable_mixedStore summariesAgree_mixedStore hname hp).1

end ReferenceStore

end SymbolIndex
