import SymbolIndex.Proofs.Cache.Faithful
import SymbolIndex.Proofs.Equality
import SymbolIndex.Proofs.Workspace.Soundness

/-!
# Histories of workspaces

A run is a list of actions, among them the restart of the program over the same
cache.  Its history lists what was read from documents, what was forgotten and
the states that were saved.  The history knows nothing of where tables are kept:
the last build of a document is what a workspace that never put anything away
would hold.
-/

namespace SymbolIndex.Workspace

/-- What the reading of a document gives. -/
structure Build where
  symbols : SymbolTable
  references : ReferenceTable

namespace Build

/-- Both tables are filed under the digest of the one name they have. -/
structure Filed (build : Build) : Prop where
  sameUri : build.references.uri = build.symbols.uri
  symbolsHash : build.symbols.hash = uriHash build.symbols.uri
  referencesHash : build.references.hash = uriHash build.symbols.uri

end Build

inductive Event where
  | built (build : Build)
  | forgotten (uri : String)
  | saved (state : SavedState)

namespace Event

/-- The document that an event is about. -/
def uri? : Event → Option String
  | built build => some build.symbols.uri
  | forgotten uri => some uri
  | saved _ => none

def build? : Event → Option Build
  | built build => some build
  | forgotten _ => none
  | saved _ => none

/-- What the event brings into being can be read back from its stored form. -/
def Decodes : Event → Prop
  | built build => Stored.Decodes build.symbols ∧ Stored.Decodes build.references
  | forgotten _ => True
  | saved state => Stored.Decodes state

instance (event : Event) : Decidable event.Decodes :=
  match event with
  | built _ => inferInstanceAs (Decidable (_ ∧ _))
  | forgotten _ => inferInstanceAs (Decidable True)
  | saved state => inferInstanceAs (Decidable (Stored.Decodes state))

end Event

/-- The last build of a document, unless the document was forgotten since. -/
def lastBuild? (log : List Event) (uri : String) : Option Build :=
  (log.filter fun event => event.uri? == some uri).getLast?.bind Event.build?

/-- The last event of a document decides about its build. -/
theorem lastBuild?_concat (log : List Event) (event : Event) (uri : String) :
    lastBuild? (log ++ [event]) uri =
      if event.uri? = some uri then event.build? else lastBuild? log uri := by
  rw [lastBuild?, List.filter_append]
  by_cases heq : event.uri? = some uri
  · simp [heq]
  · have hne : (event.uri? == some uri) = false := by simpa using heq
    simp [heq, hne, lastBuild?]

/-- A document that is built has that build. -/
theorem lastBuild?_built (log : List Event) (build : Build) (uri : String) :
    lastBuild? (log ++ [.built build]) uri =
      if uri = build.symbols.uri then some build else lastBuild? log uri := by
  rw [lastBuild?_concat]
  by_cases heq : uri = build.symbols.uri
  · simp [Event.uri?, Event.build?, heq]
  · simp [Event.uri?, heq, Ne.symm heq]

theorem lastBuild?_forgotten (log : List Event) (gone uri : String) :
    lastBuild? (log ++ [.forgotten gone]) uri =
      if uri = gone then none else lastBuild? log uri := by
  rw [lastBuild?_concat]
  by_cases heq : uri = gone
  · simp [Event.uri?, Event.build?, heq]
  · simp [Event.uri?, heq, Ne.symm heq]

theorem map_lastBuild?_forgotten {β : Type} (part : Build → β) (log : List Event)
    (gone uri : String) :
    (lastBuild? (log ++ [.forgotten gone]) uri).map part =
      if uri = gone then none else (lastBuild? log uri).map part := by
  rw [lastBuild?_forgotten, apply_ite (Option.map part), Option.map_none]

theorem lastBuild?_saved (log : List Event) (state : SavedState) (uri : String) :
    lastBuild? (log ++ [.saved state]) uri = lastBuild? log uri := by
  rw [lastBuild?_concat, if_neg]
  intro huri
  cases huri

/-- The last build is one of the document's builds. -/
theorem mem_of_lastBuild? {log : List Event} {uri : String} {build : Build}
    (hlast : lastBuild? log uri = some build) :
    Event.built build ∈ log ∧ build.symbols.uri = uri := by
  obtain ⟨event, hevent, hbuild⟩ := Option.bind_eq_some_iff.1 hlast
  obtain ⟨hmem, huri⟩ := List.mem_filter.1 (List.mem_of_getLast? hevent)
  cases event with
  | built other =>
      cases hbuild
      exact ⟨hmem, by simpa [Event.uri?] using huri⟩
  | forgotten other => cases hbuild
  | saved state => cases hbuild

/-! ## Runs -/

inductive Action where
  | openDocument (document : Document)
  | edit (document : Document)
  | flush (uri : String)
  | flushAll
  | advance (duration : Nat)
  | close (uri : String)
  | restore (uri : String)
  | forget (uri : String)
  | discover (document : Document)
  | restart (config : Config) (timestamp : UInt64)

section

variable {σ : Type}

def build (workspace : Workspace σ) (document : Document) : Build :=
  ⟨SymbolTable.ofDocument document, (workspace.read document).2⟩

theorem filed_build (workspace : Workspace σ) (document : Document) :
    (workspace.build document).Filed :=
  ⟨rfl, rfl, rfl⟩

section

variable (log : List Event) (workspace : Workspace σ) (document : Document) (uri : String)

theorem lastBuild?_build :
    lastBuild? (log ++ [.built (workspace.build document)]) uri =
      if uri = document.uri then some (workspace.build document) else lastBuild? log uri :=
  lastBuild?_built log (workspace.build document) uri

theorem map_lastBuild?_build {β : Type} (part : Build → β) :
    (lastBuild? (log ++ [.built (workspace.build document)]) uri).map part =
      if uri = document.uri then some (part (workspace.build document))
      else (lastBuild? log uri).map part := by
  rw [lastBuild?_build, apply_ite (Option.map part), Option.map_some]

theorem lastBuild?_build_eq_none_iff :
    lastBuild? (log ++ [.built (workspace.build document)]) uri = none ↔
      uri ≠ document.uri ∧ lastBuild? log uri = none := by
  rw [lastBuild?_build]
  by_cases heq : uri = document.uri
  · simp [heq]
  · simp [heq]

end

/-- The builds of documents that are read one after another. -/
def builds (workspace : Workspace σ) : List Document → List Event
  | [] => []
  | document :: rest =>
    .built (workspace.build document) :: (workspace.rebuild document).builds rest

/-- What reading gives depends on the symbols at hand only. -/
theorem build_congr {left right : Workspace σ} (hsame : left.symbols = right.symbols)
    (document : Document) : left.build document = right.build document := by
  simp only [build, read, hsame]

/-- What is built depends on the symbols at hand only. -/
theorem builds_congr {left right : Workspace σ} (hsame : left.symbols = right.symbols)
    (documents : List Document) : left.builds documents = right.builds documents := by
  induction documents generalizing left right with
  | nil => rfl
  | cons document rest ih =>
      have hrebuild : (left.rebuild document).symbols = (right.rebuild document).symbols := by
        simp only [rebuild, read, hsame]
      rw [builds, builds, build_congr hsame, ih hrebuild]

/-! ## Invariants of reading -/

/-- A property of workspaces with their histories that has nothing to do with the edits that are put
off, and that is kept when one more document is open and when an open one is read. -/
structure KeptByReading (P : Workspace σ → List Event → Prop) : Prop where
  withEdits : ∀ {workspace log}, P workspace log → ∀ edits,
    P { workspace with edits := edits } log
  markOpen : ∀ {workspace log}, P workspace log → ∀ uri, P (workspace.markOpen uri) log
  rebuild : ∀ {workspace log}, P workspace log → workspace.Sound → ∀ {document},
    document.uri ∈ workspace.opened → (Event.built (workspace.build document)).Decodes →
      P (workspace.rebuild document) (log ++ [.built (workspace.build document)])

namespace KeptByReading

variable {P : Workspace σ → List Event → Prop} (hkept : KeptByReading P)
variable {workspace : Workspace σ} (log : List Event)

include hkept

/-- A property that reading keeps is kept when many documents are read. -/
theorem rebuildAll (hheld : P workspace log) (hsound : workspace.Sound)
    {documents : List Document}
    (hopen : ∀ document ∈ documents, document.uri ∈ workspace.opened)
    (hdecodes : ∀ event ∈ workspace.builds documents, event.Decodes) :
    P (workspace.rebuildAll documents) (log ++ workspace.builds documents) := by
  induction documents generalizing workspace log with
  | nil =>
      rw [builds, List.append_nil]
      exact hheld
  | cons document rest ih =>
      obtain ⟨hfirst, hrest⟩ := List.forall_mem_cons.1 hdecodes
      obtain ⟨hopenFirst, hopenRest⟩ := List.forall_mem_cons.1 hopen
      rw [builds, List.append_cons]
      exact ih _ (hkept.rebuild hheld hsound hopenFirst hfirst) (hsound.rebuild document)
        hopenRest hrest

/-- Edits are read from where they waited. -/
theorem readEdits (hheld : P workspace log) (hsound : workspace.Sound)
    {edits : Debouncer Document}
    (hfewer : edits.pending.Sublist workspace.edits.pending) {documents : List Document}
    (hwaiting : ∀ document ∈ documents,
      ∃ entry ∈ workspace.edits.pending, entry.2.item = document)
    (hdecodes : ∀ event ∈ workspace.builds documents, event.Decodes) :
    P ({ workspace with edits := edits }.rebuildAll documents)
      (log ++ workspace.builds documents) := by
  have hbuilds : { workspace with edits := edits }.builds documents =
      workspace.builds documents := by
    apply builds_congr
    rfl
  rw [← hbuilds] at hdecodes ⊢
  apply hkept.rebuildAll log (hkept.withEdits hheld edits) (hsound.withEdits hfewer) _ hdecodes
  intro document hmem
  obtain ⟨entry, hentry, rfl⟩ := hwaiting document hmem
  exact hsound.open_of_pending hentry

theorem openDocument (hheld : P workspace log) (hsound : workspace.Sound)
    {document : Document} (hdecodes : (Event.built (workspace.build document)).Decodes) :
    P (workspace.openDocument document) (log ++ [.built (workspace.build document)]) := by
  have hopen := (mem_opened_markOpen workspace document.uri document.uri).2 (Or.inr rfl)
  have hsymbols : (workspace.markOpen document.uri).symbols = workspace.symbols := by
    rw [markOpen_eq]
  have hmarked := hkept.markOpen hheld document.uri
  have hsoundMarked := hsound.markOpen document.uri
  rw [Workspace.openDocument]
  generalize workspace.markOpen document.uri = marked at *
  rw [← build_congr hsymbols] at hdecodes ⊢
  exact hkept.rebuild (hkept.withEdits hmarked (marked.edits.cancel document.uri))
    (hsoundMarked.withEdits List.filter_sublist) hopen hdecodes

theorem edit (hheld : P workspace log) (document : Document) :
    P (workspace.edit document) log :=
  hkept.withEdits (hkept.markOpen hheld document.uri) _

theorem flush (hheld : P workspace log) (hsound : workspace.Sound) (uri : String)
    (hdecodes : ∀ event ∈ workspace.builds (workspace.edits.flush uri).1.toList,
      event.Decodes) :
    P (workspace.flush uri) (log ++ workspace.builds (workspace.edits.flush uri).1.toList) := by
  apply hkept.readEdits log hheld hsound List.filter_sublist _ hdecodes
  intro document hmem
  obtain ⟨entry, hentry, -, hitem⟩ := Debouncer.mem_pending_of_flush hmem
  exact ⟨entry, hentry, hitem⟩

theorem flushAll (hheld : P workspace log) (hsound : workspace.Sound)
    (hdecodes : ∀ event ∈ workspace.builds workspace.edits.flushAll.1, event.Decodes) :
    P workspace.flushAll (log ++ workspace.builds workspace.edits.flushAll.1) :=
  hkept.readEdits log hheld hsound (List.nil_sublist _)
    (fun _ hmem => Debouncer.mem_pending_of_flushAll hmem) hdecodes

theorem advance (hheld : P workspace log) (hsound : workspace.Sound) (duration : Nat)
    (hdecodes : ∀ event ∈ workspace.builds (workspace.edits.advance duration).1,
      event.Decodes) :
    P (workspace.advance duration)
      (log ++ workspace.builds (workspace.edits.advance duration).1) :=
  hkept.readEdits log hheld hsound (workspace.edits.pending_advance_sublist duration)
    (fun _ hmem => Debouncer.mem_pending_of_advance hmem) hdecodes

end KeptByReading

variable [ByteStore σ]

/-- The end of a run and a new one over the cache it leaves, which is not
cleared. -/
def restart (workspace : Workspace σ) (config : Config) (timestamp : UInt64) : Workspace σ :=
  (new { config with clearCache := false } (workspace.shutdown timestamp).cache).startup.1

def step (workspace : Workspace σ) : Action → Workspace σ
  | .openDocument document => workspace.openDocument document
  | .edit document => workspace.edit document
  | .flush uri => workspace.flush uri
  | .flushAll => workspace.flushAll
  | .advance duration => workspace.advance duration
  | .close uri => workspace.close uri
  | .restore uri => (workspace.restore uri).1
  | .forget uri => workspace.forget uri
  | .discover document => workspace.discover document
  | .restart config timestamp => workspace.restart config timestamp

/-- What an action adds to the history. Edits are read when they are no longer
put off, and a discovered document only when it is not open. -/
def events (workspace : Workspace σ) : Action → List Event
  | .openDocument document => [.built (workspace.build document)]
  | .edit _ => []
  | .flush uri => workspace.builds (workspace.edits.flush uri).1.toList
  | .flushAll => workspace.builds workspace.edits.flushAll.1
  | .advance duration => workspace.builds (workspace.edits.advance duration).1
  | .close uri => workspace.builds (workspace.edits.flush uri).1.toList
  | .restore _ => []
  | .forget uri => [.forgotten uri]
  | .discover document =>
    if workspace.isOpen document.uri then [] else [.built (workspace.build document)]
  | .restart _ timestamp =>
    workspace.builds workspace.edits.flushAll.1 ++
      [.saved (.new timestamp workspace.flushAll.knownUris)]

def run (workspace : Workspace σ) (actions : List Action) : Workspace σ :=
  actions.foldl step workspace

def history (workspace : Workspace σ) : List Action → List Event
  | [] => []
  | action :: rest => workspace.events action ++ (workspace.step action).history rest

/-- Every action leads to a workspace that operations lead to. -/
theorem Reachable.step {workspace : Workspace σ} (hreachable : workspace.Reachable)
    (action : Action) : (workspace.step action).Reachable := by
  cases action with
  | openDocument document => exact hreachable.openDocument document
  | edit document => exact hreachable.edit document
  | flush uri => exact hreachable.flush uri
  | flushAll => exact hreachable.flushAll
  | advance duration => exact hreachable.advance duration
  | close uri => exact hreachable.close uri
  | restore uri => exact hreachable.restore uri
  | forget uri => exact hreachable.forget uri
  | discover document => exact hreachable.discover document
  | restart config timestamp => exact (Reachable.new _ _).startup

end

end SymbolIndex.Workspace
