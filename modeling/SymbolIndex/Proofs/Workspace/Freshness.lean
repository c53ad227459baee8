import Mathlib
import SymbolIndex.Cache.Memory
import SymbolIndex.Proofs.Equality
import SymbolIndex.Proofs.Workspace.Soundness
import SymbolIndex.Tree.Snippet
import SymbolIndex.Workspace.Query

/-!
# Freshness of answers

An answer is fresh when reading all edits first would give the same.  The two
searches by name read them all.  The other queries read those of one document
or none, so whether an answer is fresh depends on what waits: the symbols of a
document never depend on other documents, its references do while they are
read, and what a name refers to or what a class inherits may come from anywhere.
-/

namespace SymbolIndex.Workspace

inductive Query where
  | findSymbols (text : String)
  | matchSymbols (text : String)
  | documentSymbols (uri : String)
  | referenceAt (uri : String) (position : Position)
  | symbolsAt (uri : String) (position : Position) (policy : MemberPolicy)
  | typeMembers (name : String) (policy : MemberPolicy)
  | findReferences (uri : String) (position : Position) (withDeclaration : Bool)

inductive Answer where
  | symbols (found : List Symbol)
  | reference (found : Option Reference)
  | references (found : List Reference)
  deriving DecidableEq

variable {σ : Type}

/-- The documents with an edit that was put off. -/
def pendingUris (workspace : Workspace σ) : List String :=
  workspace.edits.pending.map (·.1)

/-- No edit that the query leaves waiting can matter to its answer. -/
def Query.Settled (workspace : Workspace σ) : Query → Prop
  | findSymbols _ => True
  | matchSymbols _ => True
  | documentSymbols _ => True
  | referenceAt uri _ =>
    uri ∉ workspace.pendingUris ∨ ∀ other ∈ workspace.pendingUris, other = uri
  | symbolsAt uri _ _ => ∀ other ∈ workspace.pendingUris, other = uri
  | typeMembers _ _ => workspace.pendingUris = []
  | findReferences uri _ _ => ∀ other ∈ workspace.pendingUris, other = uri

def answer [ByteStore σ] (workspace : Workspace σ) : Query → Answer
  | .findSymbols text => .symbols (workspace.findSymbols text).1
  | .matchSymbols text => .symbols (workspace.matchSymbols text).1
  | .documentSymbols uri => .symbols (workspace.documentSymbols uri).1
  | .referenceAt uri position => .reference (workspace.referenceAt? uri position).1
  | .symbolsAt uri position policy => .symbols (workspace.symbolsAt uri position policy).1
  | .typeMembers name policy => .symbols (workspace.typeMembers name policy)
  | .findReferences uri position withDeclaration =>
    .references (workspace.findReferences uri position withDeclaration).1

/-! ## Flushing -/

/-- Where no edit was put off, there is nothing to flush. -/
theorem flush_of_not_pending {workspace : Workspace σ} {uri : String}
    (hfree : uri ∉ workspace.pendingUris) : workspace.flush uri = workspace := by
  have hnone : workspace.edits.pending? uri = none := by
    rw [Debouncer.pending?, Option.map_eq_none_iff, Option.eq_none_iff_forall_ne_some]
    intro delayed hfound
    exact hfree (List.mem_map_of_mem (KeyedList.mem_of_value? hfound))
  have hsame : workspace.edits.pending.remove uri = workspace.edits.pending := by
    rw [KeyedList.remove, List.filter_eq_self]
    intro entry hmem
    rw [bne_iff_ne]
    rintro rfl
    exact hfree (List.mem_map_of_mem hmem)
  rw [flush, Debouncer.flush, hnone, Debouncer.cancel, hsame]
  rfl

theorem flushAll_of_nothing_pending {workspace : Workspace σ}
    (hnone : workspace.pendingUris = []) : workspace.flushAll = workspace := by
  obtain ⟨config, cache, symbols, references, opened, ⟨wait, now, isRunning, pending⟩⟩ :=
    workspace
  obtain rfl : pending = [] := List.map_eq_nil_iff.1 hnone
  rfl

theorem pendingUris_flushAll (workspace : Workspace σ) : workspace.flushAll.pendingUris = [] := by
  rw [pendingUris, flushAll, edits_rebuildAll]
  rfl

/-- Nothing is left for a flush after all edits were read. -/
theorem flush_flushAll (workspace : Workspace σ) (uri : String) :
    workspace.flushAll.flush uri = workspace.flushAll := by
  apply flush_of_not_pending
  rw [pendingUris_flushAll]
  exact List.not_mem_nil

theorem flushAll_flushAll (workspace : Workspace σ) :
    workspace.flushAll.flushAll = workspace.flushAll :=
  flushAll_of_nothing_pending (pendingUris_flushAll workspace)

/-- Where only one document has an edit, reading its edit is reading them all. -/
theorem Sound.flush_eq_flushAll {workspace : Workspace σ} (hsound : workspace.Sound)
    {uri : String} (honly : ∀ other ∈ workspace.pendingUris, other = uri) :
    workspace.flush uri = workspace.flushAll := by
  have honce : workspace.pendingUris.Nodup := hsound.editsOnce
  by_cases hfree : uri ∈ workspace.pendingUris
  · obtain ⟨config, cache, symbols, references, opened, ⟨wait, now, isRunning, pending⟩⟩ :=
      workspace
    obtain ⟨entry, rfl⟩ : ∃ entry, pending = [entry] := by
      match pending with
      | [] => exact absurd hfree List.not_mem_nil
      | [entry] => exact ⟨entry, rfl⟩
      | first :: second :: rest =>
          have hfirst := honly first.1 List.mem_cons_self
          have hsecond := honly second.1 (List.mem_cons_of_mem _ List.mem_cons_self)
          have hne := (List.nodup_cons.1 honce).1
          exact absurd (List.mem_cons.2 (Or.inl (hfirst.trans hsecond.symm))) hne
    have hkey : entry.1 = uri := honly entry.1 List.mem_cons_self
    simp [Workspace.flush, Workspace.flushAll, Debouncer.flush, Debouncer.flushAll,
      Debouncer.pending?, Debouncer.cancel, KeyedList.value?_cons, KeyedList.remove, hkey]
  · have hnone : workspace.pendingUris = [] := by
      apply List.eq_nil_iff_forall_not_mem.2
      intro other hmem
      exact hfree (honly other hmem ▸ hmem)
    rw [flush_of_not_pending hfree, flushAll_of_nothing_pending hnone]

/-! ## What reading leaves unchanged -/

/-- Reading documents leaves the symbols of all others as they are. -/
theorem Sound.symbols_rebuildAll_of_not_mem {workspace : Workspace σ}
    (hsound : workspace.Sound) {documents : List Document} {uri : String}
    (hother : ∀ document ∈ documents, document.uri ≠ uri) :
    (workspace.rebuildAll documents).symbols.get? uri = workspace.symbols.get? uri := by
  induction documents generalizing workspace with
  | nil => rfl
  | cons document rest ih =>
      obtain ⟨hfirst, hrest⟩ := List.forall_mem_cons.1 hother
      calc
        ((workspace.rebuild document).rebuildAll rest).symbols.get? uri
          = (workspace.rebuild document).symbols.get? uri := ih (hsound.rebuild document) hrest
        _ = if uri = document.uri then some (SymbolTable.ofDocument document)
            else workspace.symbols.get? uri := hsound.symbols_read document uri
        _ = workspace.symbols.get? uri := if_neg hfirst.symm

/-- Reading documents leaves the references of all others as they are. -/
theorem Sound.references_rebuildAll_of_not_mem {workspace : Workspace σ}
    (hsound : workspace.Sound) {documents : List Document} {uri : String}
    (hother : ∀ document ∈ documents, document.uri ≠ uri) :
    (workspace.rebuildAll documents).references.get? uri = workspace.references.get? uri := by
  induction documents generalizing workspace with
  | nil => rfl
  | cons document rest ih =>
      obtain ⟨hfirst, hrest⟩ := List.forall_mem_cons.1 hother
      calc
        ((workspace.rebuild document).rebuildAll rest).references.get? uri
          = (workspace.rebuild document).references.get? uri :=
            ih (hsound.rebuild document) hrest
        _ = if uri = document.uri then some (workspace.read document).2
            else workspace.references.get? uri := hsound.references_rebuild document uri
        _ = workspace.references.get? uri := if_neg hfirst.symm

/-- The symbols of a document do not depend on what else is read, nor on when. -/
theorem Sound.symbols_rebuildAll_of_mem {workspace : Workspace σ} (hsound : workspace.Sound)
    {documents : List Document} (honce : (documents.map (·.uri)).Nodup)
    {document : Document} (hmem : document ∈ documents) :
    (workspace.rebuildAll documents).symbols.get? document.uri =
      some (SymbolTable.ofDocument document) := by
  induction documents generalizing workspace with
  | nil => exact absurd hmem List.not_mem_nil
  | cons first rest ih =>
      obtain ⟨hfirst, hrest⟩ := List.nodup_cons.1 honce
      rcases List.mem_cons.1 hmem with rfl | hlater
      · have hother : ∀ other ∈ rest, other.uri ≠ document.uri := by
          intro other hother heq
          exact hfirst (List.mem_map.2 ⟨other, hother, heq⟩)
        apply ((hsound.rebuild document).symbols_rebuildAll_of_not_mem hother).trans
        exact (hsound.symbols_read document document.uri).trans (if_pos rfl)
      · exact ih (hsound.rebuild first) hrest hlater

/-- Reading all edits leaves a document without one as it is. -/
theorem Sound.other_of_flushAll {workspace : Workspace σ} (hsound : workspace.Sound)
    {uri : String} (hfree : uri ∉ workspace.pendingUris) :
    ∀ document ∈ workspace.edits.flushAll.1, document.uri ≠ uri := by
  intro document hmem
  obtain ⟨entry, hentry, rfl⟩ := Debouncer.mem_pending_of_flushAll hmem
  rintro rfl
  rw [hsound.editsNamed entry hentry] at hfree
  exact hfree (List.mem_map_of_mem hentry)

theorem Sound.nodup_flushAll {workspace : Workspace σ} (hsound : workspace.Sound) :
    (workspace.edits.flushAll.1.map (·.uri)).Nodup := by
  have hnames : workspace.edits.flushAll.1.map (·.uri) = workspace.pendingUris := by
    rw [Debouncer.flushAll, pendingUris, List.map_map]
    exact List.map_congr_left hsound.editsNamed
  rw [hnames]
  exact hsound.editsOnce

/-- For the symbols of a document its own edit is all that matters. -/
theorem Sound.symbols_flush {workspace : Workspace σ} (hsound : workspace.Sound)
    (uri : String) :
    (workspace.flush uri).symbols.get? uri = workspace.flushAll.symbols.get? uri := by
  have hone : { workspace with edits := workspace.edits.cancel uri }.Sound :=
    hsound.withEdits List.filter_sublist
  have hall : { workspace with edits := workspace.edits.flushAll.2 }.Sound :=
    hsound.withEdits (List.nil_sublist _)
  cases hpending : workspace.edits.pending? uri with
  | none =>
      have hfree : uri ∉ workspace.pendingUris := by
        rw [Debouncer.pending?, Option.map_eq_none_iff] at hpending
        intro hmem
        obtain ⟨entry, hentry, rfl⟩ := List.mem_map.1 hmem
        have hne := List.lookup_eq_none_iff.1 hpending entry hentry
        simp at hne
      rw [flush_of_not_pending hfree]
      exact (hall.symbols_rebuildAll_of_not_mem (hsound.other_of_flushAll hfree)).symm
  | some document =>
      have hflush : (workspace.edits.flush uri).1 = some document := hpending
      obtain ⟨entry, hentry, hkey, hitem⟩ :=
        Debouncer.mem_pending_of_flush (Option.mem_toList.2 hflush)
      obtain rfl : document.uri = uri := by
        rw [← hitem, hsound.editsNamed entry hentry, hkey]
      have hmem : document ∈ workspace.edits.flushAll.1 :=
        List.mem_map.2 ⟨entry, hentry, hitem⟩
      calc
        (workspace.flush document.uri).symbols.get? document.uri
          = (({ workspace with edits := workspace.edits.cancel document.uri }.rebuildAll
              [document]).symbols.get? document.uri) := by
            rw [Workspace.flush, Debouncer.flush, hpending]
            rfl
        _ = some (SymbolTable.ofDocument document) :=
            hone.symbols_rebuildAll_of_mem (by simp) List.mem_cons_self
        _ = workspace.flushAll.symbols.get? document.uri :=
            (hall.symbols_rebuildAll_of_mem hsound.nodup_flushAll hmem).symm

/-- What is fetched for a document without an edit that waits is fresh. -/
theorem Sound.fetch_flush [ByteStore σ] {workspace : Workspace σ} (hsound : workspace.Sound)
    {uri : String} (hfree : uri ∉ workspace.pendingUris) :
    workspace.flushAll.fetch? uri = workspace.fetch? uri := by
  have hall : { workspace with edits := workspace.edits.flushAll.2 }.Sound :=
    hsound.withEdits (List.nil_sublist _)
  have hget : workspace.flushAll.references.get? uri = workspace.references.get? uri :=
    hall.references_rebuildAll_of_not_mem (hsound.other_of_flushAll hfree)
  have hcache : workspace.flushAll.cache = workspace.cache := cache_rebuildAll _ _
  rw [fetch?, fetch?, ReferenceStore.fetch?, ReferenceStore.fetch?, hget, hcache]

/-! ## Answers -/

/-- A reference is fresh if no other document has an edit that waits. -/
theorem Sound.referenceAt_flushAll [ByteStore σ] {workspace : Workspace σ}
    (hsound : workspace.Sound) {uri : String}
    (honly : ∀ other ∈ workspace.pendingUris, other = uri) (position : Position) :
    workspace.flushAll.referenceAt? uri position = workspace.referenceAt? uri position := by
  rw [referenceAt?, referenceAt?, flush_flushAll, hsound.flush_eq_flushAll honly]

/-- Reading all edits first changes no answer to a query that is settled. -/
theorem answer_flushAll [ByteStore σ] {workspace : Workspace σ}
    (hreachable : workspace.Reachable) {query : Query} (hsettled : query.Settled workspace) :
    workspace.flushAll.answer query = workspace.answer query := by
  have hsound := hreachable.sound
  cases query with
  | findSymbols text => rw [answer, answer, findSymbols, findSymbols, flushAll_flushAll]
  | matchSymbols text => rw [answer, answer, matchSymbols, matchSymbols, flushAll_flushAll]
  | documentSymbols uri =>
      rw [answer, answer, documentSymbols, documentSymbols, flush_flushAll]
      rw [hsound.symbols_flush]
  | referenceAt uri position =>
      rcases hsettled with hfree | honly
      · rw [answer, answer, referenceAt?, referenceAt?, flush_flushAll,
          flush_of_not_pending hfree]
        rw [hsound.fetch_flush hfree]
      · rw [answer, answer, hsound.referenceAt_flushAll honly]
  | symbolsAt uri position policy =>
      rw [answer, answer, symbolsAt, symbolsAt, hsound.referenceAt_flushAll hsettled]
  | typeMembers name policy =>
      rw [flushAll_of_nothing_pending hsettled]
  | findReferences uri position withDeclaration =>
      rw [answer, answer, findReferences, findReferences, symbolsAt, symbolsAt,
        hsound.referenceAt_flushAll hsettled]

/-! ### Answers that are not fresh -/

def memberDocument : Document :=
  Snippet.document "a" "<?php class A { function f() {} }"
    [Snippet.classDeclaration [] "A" none [] [Snippet.method [] "f" [] none []]]

def functionDocument : Document :=
  Snippet.document "a" "<?php function make(): A {}" [Snippet.function "make" [] (some "A") []]

def callingDocument : Document :=
  Snippet.document "b" "<?php make()->f();"
    [Snippet.expressionStatement (Snippet.methodCall (Snippet.call "make" []) "f" [])]

/-- The members of a class wait. -/
def memberWaits : Workspace MemoryCache :=
  (new {} MemoryCache.empty).edit memberDocument

/-- The class that an open document uses waits. -/
def classWaits : Workspace MemoryCache :=
  ((new {} MemoryCache.empty).openDocument usingDocument).edit declaringDocument

/-- A call waits, and so does the function that tells what is called. -/
def functionAndCallWait : Workspace MemoryCache :=
  ((new {} MemoryCache.empty).edit functionDocument).edit callingDocument

theorem reachable_memberWaits : memberWaits.Reachable :=
  (Reachable.new {} MemoryCache.empty).edit memberDocument

theorem reachable_classWaits : classWaits.Reachable :=
  ((Reachable.new {} MemoryCache.empty).openDocument usingDocument).edit declaringDocument

theorem reachable_functionAndCallWait : functionAndCallWait.Reachable :=
  ((Reachable.new {} MemoryCache.empty).edit functionDocument).edit callingDocument

/-- The edit that waits is the one of the document that is asked about. -/
theorem answer_flushAll_of_own_edit :
    classWaits.Reachable ∧ Query.Settled classWaits (.findReferences "a" ⟨0, 12⟩ true) ∧
      classWaits.flushAll.answer (.findReferences "a" ⟨0, 12⟩ true) =
        classWaits.answer (.findReferences "a" ⟨0, 12⟩ true) := by
  have honly : ∀ other ∈ classWaits.pendingUris, other = "a" := by decide +kernel
  exact ⟨reachable_classWaits, honly, answer_flushAll reachable_classWaits honly⟩

/-- Each of the four queries that leave edits waiting has a reachable workspace
in which it misses what waits. -/
theorem answers_miss_waiting_edits :
    (memberWaits.Reachable ∧
      memberWaits.answer (.typeMembers "A" .every) ≠
        memberWaits.flushAll.answer (.typeMembers "A" .every)) ∧
    (classWaits.Reachable ∧
      classWaits.answer (.symbolsAt "b" ⟨0, 10⟩ .every) ≠
        classWaits.flushAll.answer (.symbolsAt "b" ⟨0, 10⟩ .every) ∧
      classWaits.answer (.findReferences "b" ⟨0, 10⟩ true) ≠
        classWaits.flushAll.answer (.findReferences "b" ⟨0, 10⟩ true)) ∧
    (functionAndCallWait.Reachable ∧
      functionAndCallWait.answer (.referenceAt "b" ⟨0, 14⟩) ≠
        functionAndCallWait.flushAll.answer (.referenceAt "b" ⟨0, 14⟩)) := by
  refine ⟨⟨reachable_memberWaits, ?_⟩, ⟨reachable_classWaits, ?_, ?_⟩,
    reachable_functionAndCallWait, ?_⟩
  · decide +kernel
  · decide +kernel
  · have hbefore : (classWaits.findReferences "b" ⟨0, 10⟩ true).1.isEmpty = true := by
      decide +kernel
    have hafter :
        (classWaits.flushAll.findReferences "b" ⟨0, 10⟩ true).1.isEmpty = false := by
      rw [findReferences]
      cbv
    intro heq
    rw [answer, answer, Answer.references.injEq] at heq
    rw [heq, hafter] at hbefore
    cases hbefore
  · decide +kernel

end SymbolIndex.Workspace
