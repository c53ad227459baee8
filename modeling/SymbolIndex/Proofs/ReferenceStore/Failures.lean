import SymbolIndex.Proofs.Cache.Faithful
import SymbolIndex.Proofs.Equality
import SymbolIndex.Proofs.ReferenceStore.Search

/-!
# Reference stores over a cache that may refuse writes

A closed table leaves memory only when the cache has taken it.  So whichever writes fail, the table
added last for a document is found again, be it in memory or in the cache, and a table that the
cache holds from before never takes its place; and closing that fails changes nothing that can be
asked for.
-/

namespace SymbolIndex

open Function

namespace ByteStore

variable {σ : Type} [ByteStore σ]

/-- Reads succeed, and each write either succeeds or leaves the contents as they were. -/
structure SafeToFail (holds : σ → Contents → Prop) : Prop where
  read : ∀ {store contents}, holds store contents →
    ∀ key, ByteStore.read store key = .ok (contents key)
  write : ∀ {store contents}, holds store contents → ∀ key bytes,
    ((ByteStore.write store key bytes).fault? = none ∧
        holds (ByteStore.write store key bytes).after (update contents key (some bytes))) ∨
      ∃ fault, (ByteStore.write store key bytes).fault? = some fault ∧
        holds (ByteStore.write store key bytes).after contents

namespace SafeToFail

variable {holds : σ → Contents → Prop} {cache : σ} {contents : Contents}

/-- A table that the cache holds is read from it. -/
theorem readReferences_some (hsafe : SafeToFail holds) (hholds : holds cache contents)
    {uri : String} {table : ReferenceTable}
    (hkept : contents (referencesKey uri) = some (Stored.encode table))
    (hdecodes : Stored.Decodes table) :
    ByteStore.readReferences cache uri = .ok (some table) :=
  readValue_of_read (by rw [hsafe.read hholds, hkept]) hdecodes

/-- What is read depends on the contents only. -/
theorem readReferences_eq (hsafe : SafeToFail holds) {later : σ} (hholds : holds cache contents)
    (hlater : holds later contents) (uri : String) :
    ByteStore.readReferences later uri = ByteStore.readReferences cache uri := by
  rw [readReferences, readReferences, readValue, readValue, hsafe.read hholds, hsafe.read hlater]

end SafeToFail

end ByteStore

/-- A byte store that plans which of its writes fail. A write that fails does nothing. -/
structure Faltering (σ : Type) where
  inner : σ
  fault : StorageFault
  /-- Whether the next writes fail. The ones after them succeed. -/
  plan : List Bool

namespace Faltering

open ByteStore

variable {σ : Type} [ByteStore σ]

/-- A change of the inner store. -/
def change (store : Faltering σ) (attempt : Attempt StorageFault σ) :
    Attempt StorageFault (Faltering σ) :=
  attempt.map id fun inner => { store with inner := inner }

instance : ByteStore (Faltering σ) where
  read store key := ByteStore.read store.inner key
  write store key bytes :=
    let later := { store with plan := store.plan.tail }
    if store.plan.head? = some true then ⟨later, some store.fault⟩
    else later.change (ByteStore.write store.inner key bytes)
  delete store key := store.change (ByteStore.delete store.inner key)
  flush store := store.change (ByteStore.flush store.inner)
  clear store := store.change (ByteStore.clear store.inner)

/-- A faithful store is safe to fail, if a write that fails does nothing. -/
theorem safeToFail {holds : σ → Contents → Prop} (hfaithful : Faithful holds) :
    SafeToFail fun (store : Faltering σ) contents => holds store.inner contents where
  read hholds key := hfaithful.read hholds key
  write := by
    intro store contents hholds key bytes
    obtain ⟨hfault, hafter⟩ := hfaithful.write hholds key bytes
    by_cases hfails : store.plan.head? = some true
    · right
      exact ⟨store.fault, by simp [ByteStore.write, hfails], by simpa [ByteStore.write, hfails]⟩
    · left
      constructor
      · simp [ByteStore.write, hfails, change, Attempt.map, hfault]
      · simpa [ByteStore.write, hfails, change, Attempt.map] using hafter

end Faltering

namespace ReferenceStore

open ByteStore

variable {σ : Type} [ByteStore σ] {holds : σ → Contents → Prop}

/-! ## Closing -/

/-- A document without an open table is not closed. An open table is taken out, and put back if the
cache refuses it. -/
theorem close_outcomes (store : ReferenceStore) (cache : σ) (uri : String) :
    (store.get? uri = none ∧ store.close cache uri = ⟨store, cache, .ok false⟩) ∨
    ∃ table, store.get? uri = some table ∧
      ((writeReferences cache table).fault? = none ∧
          store.close cache uri =
            ⟨store.takeOpen uri, (writeReferences cache table).after, .ok true⟩ ∨
        ∃ fault, (writeReferences cache table).fault? = some fault ∧
          store.close cache uri =
            ⟨(store.takeOpen uri).putOpen table, (writeReferences cache table).after,
              .error fault⟩) := by
  cases hfound : store.get? uri with
  | none => exact Or.inl ⟨rfl, by rw [ReferenceStore.close, hfound]⟩
  | some table =>
    refine Or.inr ⟨table, rfl, ?_⟩
    rw [ReferenceStore.close, hfound]
    dsimp only
    obtain ⟨after, fault?⟩ := writeReferences cache table
    cases fault? with
    | none => exact Or.inl ⟨rfl, rfl⟩
    | some fault => exact Or.inr ⟨fault, rfl, rfl⟩

/-- What the cache stands for after a document was closed: the table that was open, or what it stood
for before if it does not take the table. -/
theorem close_cases (hsafe : SafeToFail holds) (store : ReferenceStore) {cache : σ}
    {contents : Contents} (hholds : holds cache contents) (uri : String) :
    (store.get? uri = none ∧ store.close cache uri = ⟨store, cache, .ok false⟩) ∨
    ∃ table, store.get? uri = some table ∧
      ((∃ after, store.close cache uri = ⟨store.takeOpen uri, after, .ok true⟩ ∧
          holds after (update contents (referencesKey uri) (some (Stored.encode table)))) ∨
        ∃ after fault,
          store.close cache uri = ⟨(store.takeOpen uri).putOpen table, after, .error fault⟩ ∧
          holds after contents) := by
  rcases close_outcomes store cache uri with
    hnone | ⟨table, hfound, ⟨hwritten, hclose⟩ | ⟨fault, hrefused, hclose⟩⟩
  · exact Or.inl hnone
  · obtain rfl := uri_of_get? hfound
    rcases hsafe.write hholds (referencesKey table.uri) (Stored.encode table) with
      ⟨-, hafter⟩ | ⟨fault, hfault, -⟩
    · exact Or.inr ⟨table, hfound, Or.inl ⟨_, hclose, hafter⟩⟩
    · rw [writeReferences, writeValue, Attempt.map, hfault] at hwritten
      cases hwritten
  · obtain rfl := uri_of_get? hfound
    rcases hsafe.write hholds (referencesKey table.uri) (Stored.encode table) with
      ⟨hfault, -⟩ | ⟨_, -, hafter⟩
    · rw [writeReferences, writeValue, Attempt.map, hfault] at hrefused
      cases hrefused
    · exact Or.inr ⟨table, hfound, Or.inr ⟨_, fault, hclose, hafter⟩⟩

/-- A table that is taken out and put back is found as before. -/
theorem get?_putOpen_takeOpen {store : ReferenceStore} (hsound : store.Sound) {uri : String}
    {table : ReferenceTable} (hfound : store.get? uri = some table) (other : String) :
    ((store.takeOpen uri).putOpen table).get? other = store.get? other := by
  have huri := uri_of_get? hfound
  have hhash : table.hash = (store.takeOpen uri).hashOf table.uri := by
    have hholds : store.holdsTable uri table = true := List.find?_some hfound
    rw [holdsTable, Bool.and_eq_true, beq_iff_eq] at hholds
    rw [huri]
    exact hholds.1
  have hfree : (store.takeOpen uri).get? table.uri = none := by
    rw [huri, get?_takeOpen_self hsound]
  rw [get?_putOpen hfree hhash, huri, get?_takeOpen hsound]
  by_cases heq : other = uri
  · rw [if_pos heq, heq, hfound]
  · rw [if_neg heq, if_neg heq]

/-- A document that is closed has no open table afterwards, unless the cache refuses it. -/
theorem get?_close {store : ReferenceStore} (hsound : store.Sound) (cache : σ)
    (uri other : String) :
    (store.close cache uri).store.get? other =
      if other = uri ∧ (store.close cache uri).outcome.isOk then none else store.get? other := by
  rcases close_outcomes store cache uri with
    ⟨hfound, hclose⟩ | ⟨table, hfound, ⟨-, hclose⟩ | ⟨fault, -, hclose⟩⟩
  · by_cases heq : other = uri
    · simp [hclose, heq, hfound]
    · simp [hclose, heq]
  · have htaken := get?_takeOpen hsound uri other
    simpa [hclose, Except.isOk, Except.toBool] using htaken
  · have hput := get?_putOpen_takeOpen hsound hfound other
    simpa [hclose, Except.isOk, Except.toBool] using hput

/-- Every question about a store and its cache has the same answer for another store and cache, and
the same tables are open. -/
structure AnswersAs (held later : ReferenceStore × σ) : Prop where
  opened : later.1.opened.Perm held.1.opened
  get? : ∀ uri, later.1.get? uri = held.1.get? uri
  summary? : ∀ uri, later.1.summary? uri = held.1.summary? uri
  candidates : ∀ name, later.1.candidates name = held.1.candidates name
  fetch? : ∀ uri, later.1.fetch? later.2 uri = held.1.fetch? held.2 uri

/-- A document that cannot be closed leaves all answers as they were. -/
theorem answersAs_close_of_error (hsafe : SafeToFail holds) {store : ReferenceStore}
    (hsound : store.Sound) {cache : σ} {contents : Contents} (hholds : holds cache contents)
    {uri : String} {fault : EngineFault} (hfails : (store.close cache uri).outcome = .error fault) :
    AnswersAs (store, cache) ((store.close cache uri).store, (store.close cache uri).cache) := by
  rcases close_cases hsafe store hholds uri with
    ⟨-, hclose⟩ | ⟨table, hopen, ⟨after, hclose, -⟩ | ⟨after, _, hclose, hafter⟩⟩
  · rw [hclose] at hfails
    cases hfails
  · rw [hclose] at hfails
    cases hfails
  · rw [hclose]
    have hget := get?_putOpen_takeOpen hsound hopen
    refine ⟨perm_eraseP_concat hopen, hget, fun _ => rfl, fun _ => rfl, fun other => ?_⟩
    rw [ReferenceStore.fetch?, ReferenceStore.fetch?, hget,
      hsafe.readReferences_eq hholds hafter]

/-! ## Runs -/

inductive Change where
  | add (table : ReferenceTable)
  | close (uri : String)
  | remove (uri : String)

namespace Change

/-- The change decides what the table of a document is. -/
def settles (uri : String) : Change → Bool
  | add table => table.uri == uri
  | remove other => other == uri
  | close _ => false

def table? : Change → Option ReferenceTable
  | add table => some table
  | close _ | remove _ => none

end Change

/-- A store and its cache after a change of the store. -/
def change (held : ReferenceStore × σ) : Change → ReferenceStore × σ
  | .add table => (held.1.add table, held.2)
  | .close uri => ((held.1.close held.2 uri).store, (held.1.close held.2 uri).cache)
  | .remove uri => (held.1.remove uri, held.2)

def changeAll (held : ReferenceStore × σ) (changes : List Change) : ReferenceStore × σ :=
  changes.foldl change held

theorem changeAll_concat (held : ReferenceStore × σ) (changes : List Change) (next : Change) :
    changeAll held (changes ++ [next]) = change (changeAll held changes) next := by
  rw [changeAll, List.foldl_append]
  rfl

/-- The table added last for a document, unless the document was removed since. -/
def lastAdded? (changes : List Change) (uri : String) : Option ReferenceTable :=
  (changes.filter (·.settles uri)).getLast?.bind Change.table?

/-- A table that is added is the last one of its document. -/
theorem lastAdded?_add (changes : List Change) (table : ReferenceTable) (uri : String) :
    lastAdded? (changes ++ [.add table]) uri =
      if uri = table.uri then some table else lastAdded? changes uri := by
  rw [lastAdded?, bind_getLast?_filter_concat, ← lastAdded?]
  simp only [Change.settles, Change.table?, beq_iff_eq, eq_comm (a := uri)]

theorem lastAdded?_remove (changes : List Change) (uri other : String) :
    lastAdded? (changes ++ [.remove uri]) other =
      if other = uri then none else lastAdded? changes other := by
  rw [lastAdded?, bind_getLast?_filter_concat, ← lastAdded?]
  simp only [Change.settles, Change.table?, beq_iff_eq, eq_comm (a := other)]

theorem lastAdded?_close (changes : List Change) (uri other : String) :
    lastAdded? (changes ++ [.close uri]) other = lastAdded? changes other := by
  rw [lastAdded?, bind_getLast?_filter_concat, ← lastAdded?]
  rfl

/-- Only tables that were added are answered. -/
theorem mem_of_lastAdded? {changes : List Change} {uri : String} {table : ReferenceTable}
    (hlast : lastAdded? changes uri = some table) : .add table ∈ changes := by
  obtain ⟨next, hnext, htable⟩ := Option.bind_eq_some_iff.1 hlast
  have hmem := List.mem_of_mem_filter (List.mem_of_getLast? hnext)
  cases next with
  | add added =>
    cases htable
    exact hmem
  | close other | remove other => cases htable

/-- A document's table is open, or it is in the cache and none is open. -/
structure Keeps (store : ReferenceStore) (contents : Contents) (uri : String)
    (table : ReferenceTable) : Prop where
  summary : store.summary? uri = some table.summary
  found : store.get? uri = some table ∨
    store.get? uri = none ∧ contents (referencesKey uri) = some (Stored.encode table)

/-- A table that is kept is what is fetched. -/
theorem Keeps.fetch? (hsafe : SafeToFail holds) {store : ReferenceStore} {cache : σ}
    {contents : Contents} (hholds : holds cache contents) {uri : String} {table : ReferenceTable}
    (hkeeps : store.Keeps contents uri table) (hdecodes : Stored.Decodes table) :
    store.fetch? cache uri = some table := by
  rcases hkeeps.found with hopen | ⟨hclosed, hkept⟩
  · rw [ReferenceStore.fetch?, hopen, Option.some_or]
  · rw [ReferenceStore.fetch?, hclosed, Option.none_or,
      hsafe.readReferences_some hholds hkept hdecodes]
    rfl

/-- The store is sound, and it keeps for every document the table that was added last. -/
structure Upholds (holds : σ → Contents → Prop) (hashOf : String → UInt64)
    (changes : List Change) (held : ReferenceStore × σ) : Prop where
  sound : held.1.Sound
  digest : held.1.hashOf = hashOf
  kept : ∃ contents, holds held.2 contents ∧
    ∀ uri table, lastAdded? changes uri = some table → held.1.Keeps contents uri table

/-- Adding a table keeps the last one of each document. -/
theorem Upholds.add {hashOf : String → UInt64} {changes : List Change}
    {held : ReferenceStore × σ} (hheld : Upholds holds hashOf changes held)
    {table : ReferenceTable} (hhash : table.hash = hashOf table.uri) :
    Upholds holds hashOf (changes ++ [.add table]) (change held (.add table)) := by
  obtain ⟨contents, hholds, hkept⟩ := hheld.kept
  have hfiled : table.hash = held.1.hashOf table.uri := by rw [hheld.digest, hhash]
  refine ⟨hheld.sound.add table, ?_, contents, hholds, ?_⟩
  · exact (hashOf_add held.1 table).trans hheld.digest
  · intro uri last hlast
    rw [lastAdded?_add] at hlast
    by_cases heq : uri = table.uri
    · rw [if_pos heq] at hlast
      cases hlast
      exact ⟨by rw [change, summary?_add hheld.sound hfiled, if_pos heq],
        Or.inl (by rw [change, get?_add hheld.sound hfiled, if_pos heq])⟩
    · rw [if_neg heq] at hlast
      obtain ⟨hsummary, hfound⟩ := hkept uri last hlast
      constructor
      · rwa [change, summary?_add hheld.sound hfiled, if_neg heq]
      · rwa [change, get?_add hheld.sound hfiled, if_neg heq]

/-- Removing a document keeps the last table of each other one. -/
theorem Upholds.remove {hashOf : String → UInt64} {changes : List Change}
    {held : ReferenceStore × σ} (hheld : Upholds holds hashOf changes held) (uri : String) :
    Upholds holds hashOf (changes ++ [.remove uri]) (change held (.remove uri)) := by
  obtain ⟨contents, hholds, hkept⟩ := hheld.kept
  refine ⟨hheld.sound.remove uri, ?_, contents, hholds, ?_⟩
  · exact (hashOf_remove held.1 uri).trans hheld.digest
  · intro other last hlast
    rw [lastAdded?_remove] at hlast
    by_cases heq : other = uri
    · rw [if_pos heq] at hlast
      cases hlast
    · rw [if_neg heq] at hlast
      obtain ⟨hsummary, hfound⟩ := hkept other last hlast
      constructor
      · rwa [change, summary?_remove hheld.sound, if_neg heq]
      · rwa [change, get?_remove hheld.sound, if_neg heq]

/-- Closing a document keeps the last table of each, whether it fails or not. -/
theorem Upholds.close (hsafe : SafeToFail holds) {hashOf : String → UInt64}
    {changes : List Change} {held : ReferenceStore × σ}
    (hheld : Upholds holds hashOf changes held) (uri : String) :
    Upholds holds hashOf (changes ++ [.close uri]) (change held (.close uri)) := by
  obtain ⟨contents, hholds, hkept⟩ := hheld.kept
  refine ⟨hheld.sound.close held.2 uri, ?_, ?_⟩
  · exact (hashOf_close held.1 held.2 uri).trans hheld.digest
  rw [change]
  simp only [lastAdded?_close]
  rcases close_cases hsafe held.1 hholds uri with
    ⟨-, hclose⟩ | ⟨table, hopen, ⟨after, hclose, hafter⟩ | ⟨after, fault, hclose, hafter⟩⟩
  · rw [hclose]
    exact ⟨contents, hholds, hkept⟩
  · rw [hclose]
    refine ⟨_, hafter, ?_⟩
    intro other last hother
    obtain ⟨hsummary, hfound⟩ := hkept other last hother
    refine ⟨hsummary, ?_⟩
    dsimp only
    rw [get?_takeOpen hheld.sound]
    by_cases heq : other = uri
    · -- The table that leaves memory is the one that was added last.
      subst heq
      rw [hopen] at hfound
      obtain hsame | ⟨hnone, -⟩ := hfound
      · cases hsame
        exact Or.inr ⟨if_pos rfl, update_self _ _ _⟩
      · cases hnone
    · rw [if_neg heq, update_of_ne fun hkey => heq (referencesKey_injective hkey)]
      exact hfound
  · rw [hclose]
    refine ⟨contents, hafter, ?_⟩
    intro other last hother
    obtain ⟨hsummary, hfound⟩ := hkept other last hother
    refine ⟨hsummary, ?_⟩
    rwa [get?_putOpen_takeOpen hheld.sound hopen]

/-- After any changes the store keeps the table that was added last for each document. -/
theorem upholds_changeAll (hsafe : SafeToFail holds) {store : ReferenceStore}
    (hsound : store.Sound) {cache : σ} {contents : Contents} (hholds : holds cache contents)
    {changes : List Change}
    (hfiled : ∀ table, .add table ∈ changes → table.hash = store.hashOf table.uri) :
    Upholds holds store.hashOf changes (changeAll (store, cache) changes) := by
  induction changes using List.reverseRecOn with
  | nil => exact ⟨hsound, rfl, contents, hholds, fun _ _ hlast => nomatch hlast⟩
  | append_singleton changes next ih =>
    have hheld := ih fun table hmem => hfiled table (List.mem_append_left _ hmem)
    rw [changeAll_concat]
    cases next with
    | add table =>
      exact hheld.add (hfiled table (List.mem_append_right _ (List.mem_singleton.2 rfl)))
    | close uri => exact hheld.close hsafe uri
    | remove uri => exact hheld.remove uri

/-- After any changes of any store, whichever writes to the cache have failed and whatever the cache
held before, the table added last for a document that was not removed since is fetched, and its
summary is at hand. When a table cannot be closed then, nothing that can be asked for changes. The
tables that are added are filed under the digest of their names, and can be read as they are
written. -/
theorem fetch?_changeAll (hsafe : SafeToFail holds) {store : ReferenceStore}
    (hreachable : store.Reachable) {cache : σ} {contents : Contents}
    (hholds : holds cache contents) {changes : List Change}
    (hadded : ∀ table, .add table ∈ changes →
      table.hash = store.hashOf table.uri ∧ Stored.Decodes table) :
    let held := changeAll (store, cache) changes
    (∀ uri table, lastAdded? changes uri = some table →
      held.1.fetch? held.2 uri = some table ∧ held.1.summary? uri = some table.summary) ∧
    ∀ uri fault, (held.1.close held.2 uri).outcome = .error fault →
      AnswersAs held (change held (.close uri)) := by
  intro held
  have hheld : Upholds holds store.hashOf changes held :=
    upholds_changeAll hsafe hreachable.sound hholds fun table hmem => (hadded table hmem).1
  obtain ⟨contents, hafter, hkept⟩ := hheld.kept
  constructor
  · intro uri table hlast
    have hkeeps := hkept uri table hlast
    have hdecodes := (hadded table (mem_of_lastAdded? hlast)).2
    exact ⟨hkeeps.fetch? hsafe hafter hdecodes, hkeeps.summary⟩
  · exact fun uri fault hfails => answersAs_close_of_error hsafe hheld.sound hafter hfails

/-! ### A newer table that the cache refuses, above an older one -/

def olderTable : ReferenceTable :=
  flatTable "a" [(.classType, "Shape")]

def newerTable : ReferenceTable :=
  flatTable "a" [(.function, "area")]

def refusedChanges : List Change :=
  [.add olderTable, .close "a", .add newerTable, .add openTable, .close "a"]

def refusedStore : ReferenceStore :=
  { new 1 with hashOf := fun _ => 0 }

/-- The second write and the third one fail. -/
def fullCache : Faltering MemoryCache :=
  ⟨.empty, .storage "full", [false, true, true]⟩

theorem fetch?_changeAll_refused :
    let held := changeAll (refusedStore, fullCache) refusedChanges
    readReferences held.2 "a" = .ok (some olderTable) ∧
      held.1.fetch? held.2 "a" = some newerTable ∧
      held.1.summary? "a" = some newerTable.summary ∧
      AnswersAs held (change held (.close "b")) := by
  have hsafe := Faltering.safeToFail MemoryCache.faithful_holds
  have hreachable : refusedStore.Reachable := .new 1 fun _ => 0
  have hadded : ∀ table, Change.add table ∈ refusedChanges →
      table.hash = refusedStore.hashOf table.uri ∧ Stored.Decodes table := by
    intro table hmem
    simp only [refusedChanges, List.mem_cons, Change.add.injEq, reduceCtorEq, List.not_mem_nil,
      or_false, false_or] at hmem
    obtain rfl | rfl | rfl := hmem
    · exact ⟨rfl, by decide +kernel⟩
    · exact ⟨rfl, by decide +kernel⟩
    · exact ⟨rfl, by decide +kernel⟩
  have hholds : fullCache.inner.Holds fun _ => none := MemoryCache.holds_empty
  obtain ⟨hfetch, hclose⟩ := fetch?_changeAll hsafe hreachable hholds hadded
  obtain ⟨hnewer, hsummary⟩ := hfetch "a" newerTable rfl
  exact ⟨by decide +kernel, hnewer, hsummary, hclose "b" (.cache "full") (by decide +kernel)⟩

end ReferenceStore

end SymbolIndex
