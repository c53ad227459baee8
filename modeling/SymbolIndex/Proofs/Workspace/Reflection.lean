import SymbolIndex.Proofs.Workspace.History
import SymbolIndex.Workspace.Query

/-!
# Workspaces that reflect their history

The invariant behind eviction.  Over a faithful cache a workspace reflects its
history when symbols and summaries are those of the last builds, an open table
is the one built last, and for every document without an open table the cache
holds the references built last.  Each operation within a run of the program
keeps this while the history grows by what the operation reads or forgets.
-/

namespace SymbolIndex.Workspace

open Function
open SymbolIndex.ByteStore

/-! ## The invariant -/

/-- What a history owes to the way it came about. -/
structure Recorded (log : List Event) : Prop where
  filed : ∀ build, Event.built build ∈ log → build.Filed
  decodes : ∀ event ∈ log, event.Decodes

theorem recorded_nil : Recorded [] where
  filed := fun _ hmem => absurd hmem List.not_mem_nil
  decodes := fun _ hmem => absurd hmem List.not_mem_nil

/-- One more event that can be read back may be recorded. -/
theorem Recorded.concat {log : List Event} (hrecorded : Recorded log) {event : Event}
    (hfiled : ∀ build, event = .built build → build.Filed) (hdecodes : event.Decodes) :
    Recorded (log ++ [event]) where
  filed := by
    intro build hmem
    rcases List.mem_append.1 hmem with hold | hnew
    · exact hrecorded.filed build hold
    · exact hfiled build (List.mem_singleton.1 hnew).symm
  decodes := by
    intro other hmem
    rcases List.mem_append.1 hmem with hold | hnew
    · exact hrecorded.decodes other hold
    · exact List.mem_singleton.1 hnew ▸ hdecodes

theorem Recorded.built {log : List Event} (hrecorded : Recorded log) {build : Build}
    (hfiled : build.Filed) (hdecodes : (Event.built build).Decodes) :
    Recorded (log ++ [.built build]) := by
  apply hrecorded.concat _ hdecodes
  intro other heq
  cases heq
  exact hfiled

variable {σ : Type}

/-- The contents of the cache hold the references built last of every document
that has no open table, and nothing of a document that has no build. -/
structure Kept (workspace : Workspace σ) (log : List Event) (contents : Contents) : Prop where
  references : ∀ uri, workspace.references.get? uri = none →
    contents (referencesKey uri) =
      ((lastBuild? log uri).map (·.references)).map Stored.encode
  absent : ∀ uri, lastBuild? log uri = none → contents (symbolsKey uri) = none

structure Reflects (holds : σ → Contents → Prop) (workspace : Workspace σ)
    (log : List Event) : Prop where
  recorded : Recorded log
  symbols : ∀ uri, workspace.symbols.get? uri = (lastBuild? log uri).map (·.symbols)
  summary : ∀ uri, workspace.references.summary? uri =
    (lastBuild? log uri).map (·.references.summary)
  openTable : ∀ uri table, workspace.references.get? uri = some table →
    (lastBuild? log uri).map (·.references) = some table ∧ uri ∈ workspace.opened
  symbolsFiled : workspace.symbols.Filed
  referencesFiled : workspace.references.Filed
  cached : ∃ contents, holds workspace.cache contents ∧ workspace.Kept log contents

variable {holds : σ → Contents → Prop} {workspace : Workspace σ} {log : List Event}

theorem reflects_new (config : Config) {cache : σ} (hempty : holds cache fun _ => none) :
    Reflects holds (new config cache) [] where
  recorded := recorded_nil
  symbols := fun _ => rfl
  summary := fun _ => rfl
  openTable := by
    intro uri table hfound
    cases hfound
  symbolsFiled := SymbolStore.filed_empty uriHash
  referencesFiled := fun _ hmem => absurd hmem List.not_mem_nil
  cached := ⟨_, hempty, fun _ _ => rfl, fun _ _ => rfl⟩

/-! ## What the cache must hold -/

/-- With more open tables the cache has less to hold. -/
theorem Kept.of_more_open {contents : Contents} {larger : Workspace σ}
    (hkept : workspace.Kept log contents)
    (hmore : ∀ uri, larger.references.get? uri = none →
      workspace.references.get? uri = none) : larger.Kept log contents where
  references uri hnone := hkept.references uri (hmore uri hnone)
  absent := hkept.absent

/-- The cache need not hold what was read just now. -/
theorem Kept.rebuild {contents : Contents} (hkept : workspace.Kept log contents)
    (hsound : workspace.Sound) (document : Document) :
    (workspace.rebuild document).Kept (log ++ [.built (workspace.build document)])
      contents where
  references := by
    intro uri hfree
    rw [hsound.references_rebuild] at hfree
    rw [lastBuild?_build]
    by_cases heq : uri = document.uri
    · rw [if_pos heq] at hfree
      cases hfree
    · rw [if_neg heq] at hfree ⊢
      exact hkept.references uri hfree
  absent := by
    intro uri hnone
    rw [lastBuild?_build_eq_none_iff] at hnone
    exact hkept.absent uri hnone.2

/-- The references of a document may leave memory once the cache has them. -/
theorem Kept.takeOpen {contents : Contents} (hkept : workspace.Kept log contents)
    (hsound : workspace.Sound) {uri : String} {table : ReferenceTable}
    (hlast : (lastBuild? log uri).map (·.references) = some table) :
    { workspace with references := workspace.references.takeOpen uri }.Kept log
      (update contents (referencesKey uri) (some (Stored.encode table))) where
  references := by
    intro other hnone
    have hfree :=
      (ReferenceStore.get?_takeOpen hsound.references uri other).symm.trans hnone
    by_cases heq : other = uri
    · rw [heq, update_self, hlast, Option.map_some]
    · rw [if_neg heq] at hfree
      rw [update_of_ne (referencesKey_injective.ne heq)]
      exact hkept.references other hfree
  absent := by
    intro other hnone
    rw [update_of_ne (symbolsKey_ne_referencesKey other uri)]
    exact hkept.absent other hnone

/-- The references of a discovered document are in the cache only. -/
theorem Kept.discover {contents : Contents} (hkept : workspace.Kept log contents)
    (document : Document) :
    Kept { workspace with
        references := workspace.references.addSummary (workspace.read document).2.summary }
      (log ++ [.built (workspace.build document)])
      (update contents (referencesKey document.uri)
        (some (Stored.encode (workspace.read document).2))) where
  references := by
    intro uri hfree
    have hold := (ReferenceStore.get?_addSummary workspace.references
      (workspace.read document).2.summary uri).symm.trans hfree
    rw [map_lastBuild?_build]
    by_cases heq : uri = document.uri
    · rw [if_pos heq, heq, update_self, Option.map_some]
      rfl
    · rw [if_neg heq, update_of_ne (referencesKey_injective.ne heq)]
      exact hkept.references uri hold
  absent := by
    intro uri hnone
    rw [lastBuild?_build_eq_none_iff] at hnone
    rw [update_of_ne (symbolsKey_ne_referencesKey uri document.uri)]
    exact hkept.absent uri hnone.2

/-! ## Reading documents -/

theorem Reflects.withEdits (hreflects : Reflects holds workspace log)
    (edits : Debouncer Document) : Reflects holds { workspace with edits := edits } log :=
  { hreflects with
    cached := by
      obtain ⟨contents, hholds, hkept⟩ := hreflects.cached
      exact ⟨contents, hholds, hkept.of_more_open fun _ hnone => hnone⟩ }

theorem Reflects.markOpen (hreflects : Reflects holds workspace log) (uri : String) :
    Reflects holds (workspace.markOpen uri) log := by
  have hopened := mem_opened_markOpen workspace uri
  rw [markOpen_eq]
  obtain ⟨contents, hholds, hkept⟩ := hreflects.cached
  exact { hreflects with
    openTable := fun other table hfound =>
      have ⟨hlast, hopen⟩ := hreflects.openTable other table hfound
      ⟨hlast, (hopened other).2 (Or.inl hopen)⟩
    cached := ⟨contents, hholds, hkept.of_more_open fun _ hnone => hnone⟩ }

/-- Reading an open document adds its build to the history. -/
theorem Reflects.rebuild (hreflects : Reflects holds workspace log) (hsound : workspace.Sound)
    {document : Document} (hopen : document.uri ∈ workspace.opened)
    (hdecodes : (Event.built (workspace.build document)).Decodes) :
    Reflects holds (workspace.rebuild document)
      (log ++ [.built (workspace.build document)]) where
  recorded := hreflects.recorded.built (filed_build workspace document) hdecodes
  symbols := by
    intro uri
    rw [map_lastBuild?_build, ← hreflects.symbols]
    exact hsound.symbols_read document uri
  summary := by
    intro uri
    rw [map_lastBuild?_build, ← hreflects.summary]
    exact hsound.summary_rebuild document uri
  openTable := by
    intro uri table hfound
    rw [hsound.references_rebuild] at hfound
    rw [map_lastBuild?_build]
    by_cases heq : uri = document.uri
    · rw [if_pos heq] at hfound ⊢
      exact ⟨hfound, heq ▸ hopen⟩
    · rw [if_neg heq] at hfound ⊢
      exact hreflects.openTable uri table hfound
  symbolsFiled := hreflects.symbolsFiled.add (hsound.hash_symbols document)
  referencesFiled := hreflects.referencesFiled.add (hsound.hash_references document)
  cached := by
    obtain ⟨contents, hholds, hkept⟩ := hreflects.cached
    exact ⟨contents, hholds, hkept.rebuild hsound document⟩

theorem keptByReading_reflects : KeptByReading (Reflects holds) where
  withEdits hreflects := hreflects.withEdits
  markOpen hreflects := hreflects.markOpen
  rebuild hreflects := hreflects.rebuild

/-- Holding the references built last open again changes nothing else. -/
theorem Reflects.reopen (hreflects : Reflects holds workspace log) (hsound : workspace.Sound)
    {uri : String} {build : Build} (hlast : lastBuild? log uri = some build) :
    Reflects holds
      ({ workspace with references := workspace.references.add build.references }.markOpen uri)
      log := by
  obtain ⟨hmem, huri⟩ := mem_of_lastBuild? hlast
  obtain ⟨hsame, -, hhash⟩ := hreflects.recorded.filed build hmem
  rw [← hsame] at huri hhash
  rw [← hsound.referencesDigest] at hhash
  have hget := ReferenceStore.get?_add hsound.references hhash
  have hsummary := ReferenceStore.summary?_add hsound.references hhash
  obtain ⟨contents, hholds, hkept⟩ := hreflects.cached
  have hopened := mem_opened_markOpen
    { workspace with references := workspace.references.add build.references } uri
  rw [markOpen_eq]
  exact { hreflects with
    summary := by
      intro other
      calc
        (workspace.references.add build.references).summary? other
          = if other = build.references.uri then some build.references.summary
            else workspace.references.summary? other := hsummary other
        _ = (lastBuild? log other).map (·.references.summary) := by
            by_cases heq : other = build.references.uri
            · rw [if_pos heq, heq, huri, hlast, Option.map_some]
            · rw [if_neg heq, hreflects.summary]
    openTable := by
      intro other table hother
      have hput := (hget other).symm.trans hother
      by_cases heq : other = build.references.uri
      · rw [if_pos heq] at hput
        rw [heq, huri, hlast]
        exact ⟨hput, (hopened uri).2 (Or.inr rfl)⟩
      · rw [if_neg heq] at hput
        obtain ⟨hbuilt, hopen⟩ := hreflects.openTable other table hput
        exact ⟨hbuilt, (hopened other).2 (Or.inl hopen)⟩
    referencesFiled := hreflects.referencesFiled.add hhash
    cached := by
      have hmore : ∀ other,
          (workspace.references.add build.references).get? other = none →
            workspace.references.get? other = none := by
        intro other hnone
        have hput := (hget other).symm.trans hnone
        split at hput
        · cases hput
        · exact hput
      exact ⟨contents, hholds, hkept.of_more_open hmore⟩ }

section

variable [ByteStore σ]

/-- The references of a document, wherever they are, are those built last. -/
theorem Reflects.fetch? (hfaithful : Faithful holds) (hreflects : Reflects holds workspace log)
    (uri : String) :
    workspace.fetch? uri = (lastBuild? log uri).map (·.references) := by
  obtain ⟨contents, hholds, hkept⟩ := hreflects.cached
  rw [Workspace.fetch?, ReferenceStore.fetch?]
  cases hfound : workspace.references.get? uri with
  | some table =>
      rw [Option.some_or]
      exact (hreflects.openTable uri table hfound).1.symm
  | none =>
      rw [Option.none_or]
      apply hfaithful.readValue hholds (hkept.references uri hfound)
      intro table htable
      obtain ⟨build, hlast, rfl⟩ := Option.map_eq_some_iff.1 htable
      exact (hreflects.recorded.decodes _ (mem_of_lastBuild? hlast).1).2

/-! ## Closing and restoring -/

theorem closeReferences_of_none {uri : String}
    (hfree : workspace.references.get? uri = none) :
    workspace.closeReferences uri = workspace := by
  rw [closeReferences, ReferenceStore.close, hfree]

/-- Closing writes the references that are open, and drops them. -/
theorem closeReferences_of_some {uri : String} {table : ReferenceTable}
    (hfound : workspace.references.get? uri = some table)
    (hwritten : (ByteStore.writeReferences workspace.cache table).fault? = none) :
    workspace.closeReferences uri = { workspace with
      references := workspace.references.takeOpen uri
      cache := (ByteStore.writeReferences workspace.cache table).after } := by
  rw [closeReferences, ReferenceStore.close, hfound]
  dsimp only
  split
  · rename_i cache hattempt
    rw [hattempt]
  · rename_i cache fault hattempt
    rw [hattempt] at hwritten
    cases hwritten

/-- A document that is no longer open has its references in the cache. -/
theorem Reflects.evict (hfaithful : Faithful holds) (hreflects : Reflects holds workspace log)
    (hsound : workspace.Sound) (uri : String) :
    Reflects holds ((workspace.markClosed uri).closeReferences uri) log := by
  obtain ⟨contents, hholds, hkept⟩ := hreflects.cached
  have hopened := mem_opened_markClosed workspace uri
  cases hfound : workspace.references.get? uri with
  | none =>
      have hclosed : (workspace.markClosed uri).references.get? uri = none := hfound
      rw [closeReferences_of_none hclosed]
      exact { hreflects with
        openTable := by
          intro other table hother
          obtain ⟨hlast, hopen⟩ := hreflects.openTable other table hother
          have hne : other ≠ uri := by
            intro heq
            rw [heq] at hother
            exact absurd (hfound.symm.trans hother) (by simp)
          exact ⟨hlast, (hopened other).2 ⟨hopen, hne⟩⟩
        cached := ⟨contents, hholds, hkept.of_more_open fun _ hnone => hnone⟩ }
  | some table =>
      obtain rfl := ReferenceStore.uri_of_get? hfound
      obtain ⟨hwritten, hafter⟩ :=
        hfaithful.writeValue hholds (referencesKey table.uri) table
      have hclosed : (workspace.markClosed table.uri).references.get? table.uri =
          some table := hfound
      have hleft := hkept.takeOpen hsound (hreflects.openTable table.uri table hfound).1
      rw [closeReferences_of_some hclosed hwritten]
      exact { hreflects with
        openTable := by
          intro other kept hother
          have hstays := (ReferenceStore.get?_takeOpen hsound.references table.uri
            other).symm.trans hother
          by_cases heq : other = table.uri
          · rw [if_pos heq] at hstays
            cases hstays
          · rw [if_neg heq] at hstays
            obtain ⟨hlast, hopen⟩ := hreflects.openTable other kept hstays
            exact ⟨hlast, (hopened other).2 ⟨hopen, heq⟩⟩
        referencesFiled := hreflects.referencesFiled.takeOpen table.uri
        cached := ⟨_, hafter, hleft.of_more_open fun _ hnone => hnone⟩ }

theorem Reflects.writeSymbols (hfaithful : Faithful holds)
    (hreflects : Reflects holds workspace log) {uri : String} {table : SymbolTable}
    (hfound : workspace.symbols.get? uri = some table) :
    Reflects holds (workspace.writeSymbols table) log := by
  obtain ⟨contents, hholds, hkept⟩ := hreflects.cached
  have hafter := (hfaithful.writeValue hholds (symbolsKey table.uri) table).2
  refine { hreflects with cached := ⟨_, hafter, ?_, ?_⟩ }
  · intro other hfree
    rw [update_of_ne (symbolsKey_ne_referencesKey table.uri other).symm]
    exact hkept.references other hfree
  · intro other hnone
    have hne : other ≠ table.uri := by
      rintro rfl
      rw [SymbolStore.uri_of_get? hfound] at hnone
      rw [hreflects.symbols, hnone] at hfound
      cases hfound
    rw [update_of_ne (symbolsKey_injective.ne hne)]
    exact hkept.absent other hnone

/-- After a document was closed its last build is reflected from the cache. -/
theorem Reflects.close (hfaithful : Faithful holds) (hreflects : Reflects holds workspace log)
    (hsound : workspace.Sound) (uri : String)
    (hdecodes : ∀ event ∈ workspace.builds (workspace.edits.flush uri).1.toList,
      event.Decodes) :
    Reflects holds (workspace.close uri)
      (log ++ workspace.builds (workspace.edits.flush uri).1.toList) := by
  have hflushed := keptByReading_reflects.flush log hreflects hsound uri hdecodes
  have hevicted := hflushed.evict hfaithful (hsound.flush uri) uri
  rw [Workspace.close]
  split
  · rename_i table hfound
    exact hevicted.writeSymbols hfaithful hfound
  · exact hevicted

/-- What the cache holds of a document is the build that the history names. -/
theorem Reflects.cachedReferences? (hfaithful : Faithful holds)
    (hreflects : Reflects holds workspace log) {uri : String}
    (hfree : workspace.references.get? uri = none) :
    workspace.cachedReferences? uri = (lastBuild? log uri).map (·.references) := by
  have hfetch := hreflects.fetch? hfaithful uri
  rw [Workspace.fetch?, ReferenceStore.fetch?, hfree, Option.none_or] at hfetch
  exact hfetch

/-- Of a document without a build the cache has nothing. -/
theorem Reflects.cachedSymbols?_none (hfaithful : Faithful holds)
    (hreflects : Reflects holds workspace log) {uri : String}
    (hnone : lastBuild? log uri = none) : workspace.cachedSymbols? uri = none := by
  obtain ⟨contents, hholds, hkept⟩ := hreflects.cached
  apply hfaithful.readValue hholds (hkept.absent uri hnone)
  intro table htable
  cases htable

/-- Restoring a document brings its last build back. -/
theorem Reflects.restore (hfaithful : Faithful holds)
    (hreflects : Reflects holds workspace log) (hsound : workspace.Sound) (uri : String) :
    Reflects holds (workspace.restore uri).1 log := by
  rw [Workspace.restore]
  split
  · exact hreflects.markOpen uri
  · rename_i hclosed
    have hfree : workspace.references.get? uri = none := by
      simpa [ReferenceStore.isOpen] using hclosed
    have hreferences := hreflects.cachedReferences? hfaithful hfree
    have hsymbols := hreflects.symbols uri
    cases hlast : lastBuild? log uri with
    | none =>
        rw [hlast, Option.map_none] at hsymbols
        have hcached := hreflects.cachedSymbols?_none hfaithful hlast
        simp only [SymbolStore.contains, hsymbols, hcached, Option.isSome_none,
          Bool.false_eq_true, if_false, Option.map_none]
        exact hreflects
    | some build =>
        rw [hlast, Option.map_some] at hsymbols hreferences
        simp only [SymbolStore.contains, hsymbols, Option.isSome_some, if_true]
        rw [hreferences]
        exact hreflects.reopen hsound hlast

/-! ## Forgetting and discovering -/

/-- Both keys of a forgotten document are empty. -/
theorem Kept.forget {contents : Contents} (hkept : workspace.Kept log contents)
    (hsound : workspace.Sound) (uri : String) :
    (workspace.forget uri).Kept (log ++ [.forgotten uri])
      (update (update contents (symbolsKey uri) none) (referencesKey uri) none) where
  references := by
    intro other hnone
    have hfree :=
      (ReferenceStore.get?_remove hsound.references uri other).symm.trans hnone
    rw [map_lastBuild?_forgotten]
    by_cases heq : other = uri
    · rw [if_pos heq, heq, update_self, Option.map_none]
    · rw [if_neg heq] at hfree ⊢
      rw [update_of_ne (referencesKey_injective.ne heq),
        update_of_ne (symbolsKey_ne_referencesKey uri other).symm]
      exact hkept.references other hfree
  absent := by
    intro other hnone
    rw [lastBuild?_forgotten] at hnone
    rw [update_of_ne (symbolsKey_ne_referencesKey other uri)]
    by_cases heq : other = uri
    · rw [heq, update_self]
    · rw [if_neg heq] at hnone
      rw [update_of_ne (symbolsKey_injective.ne heq)]
      exact hkept.absent other hnone

/-- A document that is forgotten has no build any more. -/
theorem Reflects.forget (hfaithful : Faithful holds)
    (hreflects : Reflects holds workspace log) (hsound : workspace.Sound) (uri : String) :
    Reflects holds (workspace.forget uri) (log ++ [.forgotten uri]) where
  recorded := by
    have hdecodes : (Event.forgotten uri).Decodes := trivial
    apply hreflects.recorded.concat _ hdecodes
    intro build heq
    cases heq
  symbols := by
    intro other
    rw [map_lastBuild?_forgotten, ← hreflects.symbols]
    exact SymbolStore.get?_remove hsound.symbols uri other
  summary := by
    intro other
    rw [map_lastBuild?_forgotten, ← hreflects.summary]
    exact ReferenceStore.summary?_remove hsound.references uri other
  openTable := by
    intro other table hother
    have hstays :=
      (ReferenceStore.get?_remove hsound.references uri other).symm.trans hother
    rw [map_lastBuild?_forgotten]
    by_cases heq : other = uri
    · rw [if_pos heq] at hstays
      cases hstays
    · rw [if_neg heq] at hstays ⊢
      obtain ⟨hbuilt, hopen⟩ := hreflects.openTable other table hstays
      exact ⟨hbuilt, (mem_opened_markClosed workspace uri other).2 ⟨hopen, heq⟩⟩
  symbolsFiled := hreflects.symbolsFiled.remove uri
  referencesFiled := hreflects.referencesFiled.remove uri
  cached := by
    obtain ⟨contents, hholds, hkept⟩ := hreflects.cached
    exact ⟨_, hfaithful.deleteTables hholds uri, hkept.forget hsound uri⟩

theorem discover_of_open {document : Document} (hopen : document.uri ∈ workspace.opened) :
    workspace.discover document = workspace := by
  rw [Workspace.discover, if_pos (isOpen_iff.2 hopen)]

/-- Where the cache refuses the references, only the symbols are at hand. -/
theorem discover_of_refused {document : Document} (hclosed : document.uri ∉ workspace.opened)
    (hrefused : (ByteStore.writeReferences workspace.cache
      (workspace.read document).2).fault? ≠ none) :
    workspace.discover document = { workspace with
      cache := (ByteStore.writeReferences workspace.cache (workspace.read document).2).after
      symbols := (workspace.read document).1.symbols
      references := workspace.references.add (workspace.read document).2 } := by
  have hcache : (workspace.read document).1.cache = workspace.cache := rfl
  rw [Workspace.discover, if_neg (mt isOpen_iff.1 hclosed)]
  dsimp only
  rw [hcache]
  split
  · rename_i hattempt
    rw [hattempt] at hrefused
    exact absurd rfl hrefused
  · rename_i hattempt
    rw [hattempt]
    rfl

/-- A document that is discovered is known by its symbols and its summary. -/
theorem discover_of_closed {document : Document}
    (hclosed : document.uri ∉ workspace.opened)
    (hwritten : (ByteStore.writeReferences workspace.cache
      (workspace.read document).2).fault? = none) :
    workspace.discover document = { workspace with
      cache := (ByteStore.writeReferences workspace.cache (workspace.read document).2).after
      symbols := (workspace.read document).1.symbols
      references := workspace.references.addSummary (workspace.read document).2.summary } := by
  have hcache : (workspace.read document).1.cache = workspace.cache := rfl
  rw [Workspace.discover, if_neg (mt isOpen_iff.1 hclosed)]
  dsimp only
  rw [hcache]
  split
  · rename_i cache hattempt
    rw [hattempt]
    rfl
  · rename_i cache fault hattempt
    rw [hattempt] at hwritten
    cases hwritten

/-- A document that is discovered is reflected from the cache. -/
theorem Reflects.discover (hfaithful : Faithful holds)
    (hreflects : Reflects holds workspace log) (hsound : workspace.Sound)
    {document : Document} (hclosed : document.uri ∉ workspace.opened)
    (hdecodes : (Event.built (workspace.build document)).Decodes) :
    Reflects holds (workspace.discover document)
      (log ++ [.built (workspace.build document)]) := by
  obtain ⟨contents, hholds, hkept⟩ := hreflects.cached
  obtain ⟨hwritten, hafter⟩ := hfaithful.writeValue hholds
    (referencesKey document.uri) (workspace.read document).2
  rw [discover_of_closed hclosed hwritten]
  exact {
    recorded := hreflects.recorded.built (filed_build workspace document) hdecodes
    symbols := by
      intro uri
      rw [map_lastBuild?_build, ← hreflects.symbols]
      exact hsound.symbols_read document uri
    summary := by
      intro uri
      rw [map_lastBuild?_build, ← hreflects.summary]
      exact ReferenceStore.summary?_addSummary hsound.references
        (hsound.hash_references document) uri
    openTable := by
      intro uri table hfound
      have hold := (ReferenceStore.get?_addSummary workspace.references
        (workspace.read document).2.summary uri).symm.trans hfound
      obtain ⟨hbuilt, hopen⟩ := hreflects.openTable uri table hold
      have hne : uri ≠ document.uri := by
        intro heq
        exact hclosed (heq ▸ hopen)
      rw [lastBuild?_build, if_neg hne]
      exact ⟨hbuilt, hopen⟩
    symbolsFiled := hreflects.symbolsFiled.add (hsound.hash_symbols document)
    referencesFiled := hreflects.referencesFiled.addSummary _
    cached := ⟨_, hafter, (hkept.discover document).of_more_open fun _ hnone => hnone⟩ }

end

end SymbolIndex.Workspace
