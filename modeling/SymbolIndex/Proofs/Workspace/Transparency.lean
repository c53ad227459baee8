import Mathlib
import SymbolIndex.Proofs.SortedDistinct
import SymbolIndex.Proofs.Workspace.Reflection

/-!
# Transparency of eviction and restart

Over a faithful cache it does not show where the tables of a document are, nor
whether the program was restarted since they were built.  The end of a run
writes what the cache lacks, so that the cache alone holds the last build of
every document; the next run loads from it all documents that the saved state
names, and the history knows no others.
-/

namespace SymbolIndex.Workspace

open Function
open SymbolIndex.ByteStore

variable {σ : Type} {holds : σ → Contents → Prop} {workspace : Workspace σ}
variable {log : List Event} {contents : Contents}

/-! ## The end of a run -/

/-- The contents hold the last build of every document. -/
structure Saved (log : List Event) (contents : Contents) : Prop where
  symbols : ∀ uri, contents (symbolsKey uri) =
    ((lastBuild? log uri).map (·.symbols)).map Stored.encode
  references : ∀ uri, contents (referencesKey uri) =
    ((lastBuild? log uri).map (·.references)).map Stored.encode

/-- The entries have the symbols at hand of each document. -/
theorem Reflects.symbolsEntry_mem_iff (hreflects : Reflects holds workspace log)
    (hsound : workspace.Sound) (uri : String) (bytes : List UInt8) :
    (symbolsKey uri, bytes) ∈ workspace.tableEntries ↔
      ∃ table, workspace.symbols.get? uri = some table ∧ Stored.encode table = bytes := by
  rw [tableEntries, List.mem_append, List.mem_map, List.mem_map]
  constructor
  · rintro (⟨table, hmem, hentry⟩ | ⟨table, -, hentry⟩)
    · obtain ⟨hkey, hbytes⟩ := Prod.mk.inj hentry
      refine ⟨table, ?_, hbytes⟩
      rw [← symbolsKey_injective hkey]
      exact hreflects.symbolsFiled.get?_of_mem hsound.symbols hmem
    · exact absurd (Prod.mk.inj hentry).1.symm (symbolsKey_ne_referencesKey uri table.uri)
  · rintro ⟨table, hfound, rfl⟩
    refine Or.inl ⟨table, SymbolStore.mem_tables_of_get? hfound, ?_⟩
    rw [symbolsEntry, SymbolStore.uri_of_get? hfound]

/-- The entries have the open references of each document. -/
theorem Reflects.referencesEntry_mem_iff (hreflects : Reflects holds workspace log)
    (hsound : workspace.Sound) (uri : String) (bytes : List UInt8) :
    (referencesKey uri, bytes) ∈ workspace.tableEntries ↔
      ∃ table, workspace.references.get? uri = some table ∧ Stored.encode table = bytes := by
  rw [tableEntries, List.mem_append, List.mem_map, List.mem_map]
  constructor
  · rintro (⟨table, -, hentry⟩ | ⟨table, hmem, hentry⟩)
    · exact absurd (Prod.mk.inj hentry).1 (symbolsKey_ne_referencesKey table.uri uri)
    · obtain ⟨hkey, hbytes⟩ := Prod.mk.inj hentry
      refine ⟨table, ?_, hbytes⟩
      rw [← referencesKey_injective hkey]
      exact hreflects.referencesFiled.get?_of_mem hsound.references hmem
  · rintro ⟨table, hfound, rfl⟩
    refine Or.inr ⟨table, List.mem_of_find?_eq_some hfound, ?_⟩
    rw [referencesEntry, ReferenceStore.uri_of_get? hfound]

/-- Where every entry of a key has the bytes of one value, writing the entries
leaves these bytes, and without an entry the key keeps what it had. -/
theorem overlay_eq {α : Type} [Stored α] {entries : List (String × List UInt8)} {key : String}
    {value? : Option α} (hentries : ∀ bytes, (key, bytes) ∈ entries ↔
      ∃ value, value? = some value ∧ Stored.encode value = bytes)
    (contents : Contents) :
    overlay contents entries key = (value?.map Stored.encode).or (contents key) := by
  cases value? with
  | none =>
      rw [Option.map_none, Option.none_or]
      apply overlay_of_not_mem
      rintro ⟨name, bytes⟩ hmem rfl
      obtain ⟨value, hvalue, -⟩ := (hentries bytes).1 hmem
      cases hvalue
  | some value =>
      rw [Option.map_some, Option.some_or]
      apply overlay_of_mem _ ((hentries _).2 ⟨value, rfl, rfl⟩)
      rintro ⟨name, bytes⟩ hmem rfl
      obtain ⟨other, hother, hbytes⟩ := (hentries bytes).1 hmem
      cases hother
      exact hbytes.symm

/-- Once all tables at hand are written, the contents hold every last build. -/
theorem Reflects.saved_overlay (hreflects : Reflects holds workspace log)
    (hsound : workspace.Sound) (hkept : workspace.Kept log contents) :
    Saved log (overlay contents workspace.tableEntries) where
  symbols := by
    intro uri
    rw [overlay_eq (hreflects.symbolsEntry_mem_iff hsound uri), hreflects.symbols]
    cases hlast : lastBuild? log uri with
    | none => exact hkept.absent uri hlast
    | some build => rfl
  references := by
    intro uri
    rw [overlay_eq (hreflects.referencesEntry_mem_iff hsound uri)]
    cases hfound : workspace.references.get? uri with
    | none => exact hkept.references uri hfound
    | some table =>
        rw [(hreflects.openTable uri table hfound).1]
        rfl

/-- Nothing but tables is stored under the keys of tables. -/
theorem Saved.update_stateKey (hsaved : Saved log contents) (bytes : List UInt8) :
    Saved log (update contents stateKey (some bytes)) where
  symbols uri := by
    rw [update_of_ne (symbolsKey_ne_stateKey uri)]
    exact hsaved.symbols uri
  references uri := by
    rw [update_of_ne (referencesKey_ne_stateKey uri)]
    exact hsaved.references uri

section

variable [ByteStore σ]

/-- At the end of a run the cache holds every last build, and the names of the documents. -/
theorem Reflects.shutdown (hfaithful : Faithful holds) (timestamp : UInt64)
    (hreflects : Reflects holds workspace.flushAll log) (hsound : workspace.Sound) :
    ∃ contents, holds (workspace.shutdown timestamp).cache contents ∧ Saved log contents ∧
      contents stateKey =
        some (Stored.encode (SavedState.new timestamp workspace.flushAll.knownUris)) := by
  obtain ⟨contents, hholds, hkept⟩ := hreflects.cached
  have hsaved := hreflects.saved_overlay hsound.flushAll hkept
  have htables := hfaithful.writeAll hholds workspace.flushAll.tableEntries
  have hstate := (hfaithful.writeValue htables stateKey
    (SavedState.new timestamp workspace.flushAll.knownUris)).2
  rw [shutdown_eq]
  dsimp only
  rw [foldl_persist]
  exact ⟨_, (hfaithful.flush hstate).2, hsaved.update_stateKey _, update_self _ _ _⟩

end

/-! ## The start of a run -/

/-- Some documents are loaded, with all that belongs to them, and the others
are absent. -/
structure Loading (holds : σ → Contents → Prop) (log : List Event) (contents : Contents)
    (workspace : Workspace σ) : Prop where
  sound : workspace.Sound
  held : holds workspace.cache contents
  noneOpen : workspace.references.opened = []
  filed : workspace.symbols.Filed
  symbols : ∀ uri, workspace.symbols.get? uri = none ∨
    workspace.symbols.get? uri = (lastBuild? log uri).map (·.symbols)
  summary : ∀ uri, workspace.references.summary? uri = none ∨
    workspace.references.summary? uri = (lastBuild? log uri).map (·.references.summary)

structure Loaded (workspace : Workspace σ) (log : List Event) (uri : String) : Prop where
  symbols : workspace.symbols.get? uri = (lastBuild? log uri).map (·.symbols)
  summary : workspace.references.summary? uri =
    (lastBuild? log uri).map (·.references.summary)

theorem loading_new (config : Config) {cache : σ} (hholds : holds cache contents)
    (log : List Event) : Loading holds log contents (new config cache) where
  sound := sound_new config cache
  held := hholds
  noneOpen := rfl
  filed := SymbolStore.filed_empty uriHash
  symbols := fun _ => Or.inl rfl
  summary := fun _ => Or.inl rfl

section

variable {α : Type} {before after : String → Option α} {uri : String}
variable (last : String → Option α)
variable (hput : ∀ other, after other = if other = uri then last uri else before other)

include hput

/-- Putting in what is right for one name loses nothing that is right for others. -/
theorem right_of_put {other : String} (hother : other = uri ∨ before other = last other) :
    after other = last other := by
  rw [hput]
  by_cases heq : other = uri
  · rw [if_pos heq, heq]
  · rw [if_neg heq]
    exact hother.resolve_left heq

theorem absent_or_right_of_put {other : String}
    (hother : before other = none ∨ before other = last other) :
    after other = none ∨ after other = last other := by
  rcases hother with habsent | hright
  · by_cases heq : other = uri
    · exact Or.inr (right_of_put last hput (Or.inl heq))
    · rw [hput, if_neg heq]
      exact Or.inl habsent
  · exact Or.inr (right_of_put last hput (Or.inr hright))

end

/-- The symbols of a last build may be loaded. -/
theorem Loading.addSymbols (hrecorded : Recorded log)
    (hloading : Loading holds log contents workspace) {uri : String} {build : Build}
    (hlast : lastBuild? log uri = some build) :
    Loading holds log contents
        { workspace with symbols := workspace.symbols.add build.symbols } ∧
      ∀ other,
        other = uri ∨ workspace.symbols.get? other = (lastBuild? log other).map (·.symbols) →
          (workspace.symbols.add build.symbols).get? other =
            (lastBuild? log other).map (·.symbols) := by
  obtain ⟨hmem, rfl⟩ := mem_of_lastBuild? hlast
  have hhash := (hrecorded.filed build hmem).symbolsHash
  rw [← hloading.sound.symbolsDigest] at hhash
  have hget : ∀ other, (workspace.symbols.add build.symbols).get? other =
      if other = build.symbols.uri then (lastBuild? log build.symbols.uri).map (·.symbols)
      else workspace.symbols.get? other := by
    rw [hlast]
    exact SymbolStore.get?_add hloading.sound.symbols hhash
  constructor
  · exact { hloading with
      sound := hloading.sound.addSymbols build.symbols
      filed := hloading.filed.add hhash
      symbols := fun other => absent_or_right_of_put
        (fun uri => (lastBuild? log uri).map (·.symbols)) hget (hloading.symbols other) }
  · intro other hother
    exact right_of_put (fun uri => (lastBuild? log uri).map (·.symbols)) hget hother

/-- The summary of a last build may be loaded. -/
theorem Loading.addSummary (hrecorded : Recorded log)
    (hloading : Loading holds log contents workspace) {uri : String} {build : Build}
    (hlast : lastBuild? log uri = some build) :
    Loading holds log contents { workspace with
        references := workspace.references.addSummary build.references.summary } ∧
      ∀ other, other = uri ∨ workspace.references.summary? other =
          (lastBuild? log other).map (·.references.summary) →
        (workspace.references.addSummary build.references.summary).summary? other =
          (lastBuild? log other).map (·.references.summary) := by
  obtain ⟨hmem, huri⟩ := mem_of_lastBuild? hlast
  obtain ⟨hsame, -, hhash⟩ := hrecorded.filed build hmem
  rw [← hsame] at huri hhash
  subst huri
  rw [← hloading.sound.referencesDigest] at hhash
  have hget : ∀ other,
      (workspace.references.addSummary build.references.summary).summary? other =
        if other = build.references.uri then
          (lastBuild? log build.references.uri).map (·.references.summary)
        else workspace.references.summary? other := by
    rw [hlast]
    exact ReferenceStore.summary?_addSummary hloading.sound.references hhash
  constructor
  · exact { hloading with
      sound := hloading.sound.addSummary _
      noneOpen := (ReferenceStore.opened_addSummary _ _).trans hloading.noneOpen
      summary := fun other => absent_or_right_of_put
        (fun uri => (lastBuild? log uri).map (·.references.summary)) hget
        (hloading.summary other) }
  · intro other hother
    exact right_of_put (fun uri => (lastBuild? log uri).map (·.references.summary)) hget hother

theorem mem_knownUris_of_symbols {uri : String} {table : SymbolTable}
    (hfound : workspace.symbols.get? uri = some table) : uri ∈ workspace.knownUris := by
  rw [knownUris, mem_sortedDistinct, List.mem_append]
  refine Or.inl (List.mem_map.2 ⟨table, SymbolStore.mem_tables_of_get? hfound, ?_⟩)
  exact SymbolStore.uri_of_get? hfound

/-- A document that the history does not know is loaded as soon as nothing wrong
is. -/
theorem Loading.loaded_of_none (hloading : Loading holds log contents workspace)
    {uri : String} (hnone : lastBuild? log uri = none) : workspace.Loaded log uri where
  symbols := by
    have hsymbols := hloading.symbols uri
    rw [hnone, Option.map_none, or_self] at hsymbols
    rw [hsymbols, hnone, Option.map_none]
  summary := by
    have hsummary := hloading.summary uri
    rw [hnone, Option.map_none, or_self] at hsummary
    rw [hsummary, hnone, Option.map_none]

/-- With all documents loaded a workspace reflects the history. -/
theorem Loading.reflects (hrecorded : Recorded log) (hsaved : Saved log contents)
    (hloading : Loading holds log contents workspace)
    (hloaded : ∀ uri, workspace.Loaded log uri) : Reflects holds workspace log where
  recorded := hrecorded
  symbols uri := (hloaded uri).symbols
  summary uri := (hloaded uri).summary
  openTable := by
    intro uri table hfound
    have hmem := List.mem_of_find?_eq_some hfound
    rw [hloading.noneOpen] at hmem
    exact absurd hmem List.not_mem_nil
  symbolsFiled := hloading.filed
  referencesFiled := by
    intro table hmem
    rw [hloading.noneOpen] at hmem
    exact absurd hmem List.not_mem_nil
  cached := by
    have habsent : ∀ uri, lastBuild? log uri = none → contents (symbolsKey uri) = none := by
      intro uri hnone
      rw [hsaved.symbols, hnone, Option.map_none, Option.map_none]
    exact ⟨contents, hloading.held, fun uri _ => hsaved.references uri, habsent⟩

/-- A saved state changes no build. -/
theorem Reflects.concat_saved (hreflects : Reflects holds workspace log) {state : SavedState}
    (hdecodes : (Event.saved state).Decodes) :
    Reflects holds workspace (log ++ [.saved state]) := by
  have hlast := lastBuild?_saved log state
  obtain ⟨contents, hholds, hkept⟩ := hreflects.cached
  have hrecorded : Recorded (log ++ [.saved state]) := by
    apply hreflects.recorded.concat _ hdecodes
    intro build heq
    cases heq
  exact { hreflects with
    recorded := hrecorded
    symbols := by simpa only [hlast] using hreflects.symbols
    summary := by simpa only [hlast] using hreflects.summary
    openTable := by simpa only [hlast] using hreflects.openTable
    cached := ⟨contents, hholds, by simpa only [hlast] using hkept.references,
      by simpa only [hlast] using hkept.absent⟩ }

section

variable [ByteStore σ]

section

variable (hfaithful : Faithful holds) (hrecorded : Recorded log) (hsaved : Saved log contents)
variable (hloading : Loading holds log contents workspace) (uri : String)

include hfaithful hrecorded hsaved hloading

theorem Loading.cachedSymbols? :
    workspace.cachedSymbols? uri = (lastBuild? log uri).map (·.symbols) := by
  apply hfaithful.readValue hloading.held (hsaved.symbols uri)
  intro table htable
  obtain ⟨build, hlast, rfl⟩ := Option.map_eq_some_iff.1 htable
  exact (hrecorded.decodes _ (mem_of_lastBuild? hlast).1).1

theorem Loading.cachedReferences? :
    workspace.cachedReferences? uri = (lastBuild? log uri).map (·.references) := by
  apply hfaithful.readValue hloading.held (hsaved.references uri)
  intro table htable
  obtain ⟨build, hlast, rfl⟩ := Option.map_eq_some_iff.1 htable
  exact (hrecorded.decodes _ (mem_of_lastBuild? hlast).1).2

/-- Loading the symbols of a document brings in those built last, unless they
are there. -/
theorem Loading.loadSymbols :
    Loading holds log contents (workspace.loadSymbols uri).1 ∧
      (workspace.loadSymbols uri).1.references = workspace.references ∧
        ∀ other,
          other = uri ∨ workspace.symbols.get? other = (lastBuild? log other).map (·.symbols) →
            (workspace.loadSymbols uri).1.symbols.get? other =
              (lastBuild? log other).map (·.symbols) := by
  have hcached := hloading.cachedSymbols? hfaithful hrecorded hsaved uri
  rw [Workspace.loadSymbols, SymbolStore.contains]
  cases hfound : workspace.symbols.get? uri with
  | some table =>
      have hheld := (hloading.symbols uri).resolve_left (by simp [hfound])
      exact ⟨hloading, rfl, forall_eq_or_imp.2 ⟨hheld, fun _ hother => hother⟩⟩
  | none =>
      rw [hcached]
      cases hlast : lastBuild? log uri with
      | none =>
          have hnone : workspace.symbols.get? uri = (lastBuild? log uri).map (·.symbols) := by
            rw [hfound, hlast, Option.map_none]
          exact ⟨hloading, rfl, forall_eq_or_imp.2 ⟨hnone, fun _ hother => hother⟩⟩
      | some build =>
          obtain ⟨hadded, hheld⟩ := hloading.addSymbols hrecorded hlast
          exact ⟨hadded, rfl, hheld⟩

theorem Loading.loadSummary :
    Loading holds log contents (workspace.loadSummary uri).1 ∧
      (workspace.loadSummary uri).1.symbols = workspace.symbols ∧
        ∀ other, other = uri ∨ workspace.references.summary? other =
            (lastBuild? log other).map (·.references.summary) →
          (workspace.loadSummary uri).1.references.summary? other =
            (lastBuild? log other).map (·.references.summary) := by
  have hcached := hloading.cachedReferences? hfaithful hrecorded hsaved uri
  rw [Workspace.loadSummary]
  cases hfound : workspace.references.summary? uri with
  | some summary =>
      have hheld := (hloading.summary uri).resolve_left (by simp [hfound])
      exact ⟨hloading, rfl, forall_eq_or_imp.2 ⟨hheld, fun _ hother => hother⟩⟩
  | none =>
      rw [hcached]
      cases hlast : lastBuild? log uri with
      | none =>
          have hnone : workspace.references.summary? uri =
              (lastBuild? log uri).map (·.references.summary) := by
            rw [hfound, hlast, Option.map_none]
          exact ⟨hloading, rfl, forall_eq_or_imp.2 ⟨hnone, fun _ hother => hother⟩⟩
      | some build =>
          obtain ⟨hadded, hheld⟩ := hloading.addSummary hrecorded hlast
          exact ⟨hadded, rfl, hheld⟩

/-- Loading one document after another loads them all and keeps those that were
loaded before. -/
theorem Loading.loadAll (uris : List String) :
    Loading holds log contents (workspace.loadAll uris).1 ∧
      ∀ other, other ∈ uris ∨ workspace.Loaded log other →
        (workspace.loadAll uris).1.Loaded log other := by
  induction uris generalizing workspace with
  | nil =>
      constructor
      · exact hloading
      · intro other hother
        exact hother.resolve_left List.not_mem_nil
  | cons uri rest ih =>
      obtain ⟨hfirst, hreferences, hsymbols⟩ :=
        hloading.loadSymbols hfaithful hrecorded hsaved uri
      obtain ⟨hboth, hkept, hsummary⟩ :=
        hfirst.loadSummary hfaithful hrecorded hsaved uri
      obtain ⟨hall, hloaded⟩ := ih hboth
      rw [hreferences] at hsummary
      have hnow : ∀ other, other = uri ∨ workspace.Loaded log other →
          ((workspace.loadSymbols uri).1.loadSummary uri).1.Loaded log other := by
        intro other hother
        constructor
        · rw [hkept]
          exact hsymbols other (hother.imp_right Loaded.symbols)
        · exact hsummary other (hother.imp_right Loaded.summary)
      refine ⟨hall, ?_⟩
      intro other hother
      apply hloaded
      rcases hother with hmem | hbefore
      · rcases List.mem_cons.1 hmem with heq | hlater
        · exact Or.inr (hnow other (Or.inl heq))
        · exact Or.inl hlater
      · exact Or.inr (hnow other (Or.inr hbefore))

end

/-- A run that does not clear the cache loads the documents of the saved state. -/
theorem startup_of_readState {saved : SavedState}
    (hkept : workspace.config.clearCache = false)
    (hread : ByteStore.readState workspace.cache = .ok (some saved)) :
    workspace.startup.1 = (workspace.loadAll saved.knownUris).1 := by
  rw [startup, hkept, if_neg Bool.false_ne_true, hread]

/-- A restart keeps what the history says and adds the saved state to it. -/
theorem Reflects.restart (hfaithful : Faithful holds) (config : Config) (timestamp : UInt64)
    (hreflects : Reflects holds workspace.flushAll log) (hsound : workspace.Sound)
    (hdecodes : (Event.saved (.new timestamp workspace.flushAll.knownUris)).Decodes) :
    Reflects holds (workspace.restart config timestamp)
      (log ++ [.saved (.new timestamp workspace.flushAll.knownUris)]) := by
  obtain ⟨contents, hholds, hsaved, hstate⟩ := hreflects.shutdown hfaithful timestamp hsound
  have hread : ByteStore.readState (workspace.shutdown timestamp).cache =
      .ok (some (.new timestamp workspace.flushAll.knownUris)) := by
    apply hfaithful.readValue_some hholds hstate hdecodes
  have hrestart : workspace.restart config timestamp =
      ((new { config with clearCache := false } (workspace.shutdown timestamp).cache).loadAll
        (SavedState.new timestamp workspace.flushAll.knownUris).knownUris).1 :=
    startup_of_readState rfl hread
  have hnew := loading_new { config with clearCache := false } hholds log
  obtain ⟨hloading, hloaded⟩ := hnew.loadAll hfaithful hreflects.recorded hsaved
    (SavedState.new timestamp workspace.flushAll.knownUris).knownUris
  rw [← hrestart] at hloading hloaded
  apply Reflects.concat_saved _ hdecodes
  apply hloading.reflects hreflects.recorded hsaved
  intro uri
  cases hlast : lastBuild? log uri with
  | none => exact hloading.loaded_of_none hlast
  | some build =>
      have hfound := hreflects.symbols uri
      rw [hlast, Option.map_some] at hfound
      apply hloaded
      exact Or.inl (mem_sortedDistinct.2 (mem_knownUris_of_symbols hfound))

/-! ## Runs -/

/-- What an action builds is reflected. -/
theorem Reflects.step (hfaithful : Faithful holds) (hreflects : Reflects holds workspace log)
    (hsound : workspace.Sound) (action : Action)
    (hdecodes : ∀ event ∈ workspace.events action, event.Decodes) :
    Reflects holds (workspace.step action) (log ++ workspace.events action) := by
  cases action with
  | openDocument document =>
      exact keptByReading_reflects.openDocument log hreflects hsound (hdecodes _ List.mem_cons_self)
  | edit document =>
      rw [events, List.append_nil]
      exact keptByReading_reflects.edit log hreflects document
  | flush uri => exact keptByReading_reflects.flush log hreflects hsound uri hdecodes
  | flushAll => exact keptByReading_reflects.flushAll log hreflects hsound hdecodes
  | advance duration => exact keptByReading_reflects.advance log hreflects hsound duration hdecodes
  | close uri => exact hreflects.close hfaithful hsound uri hdecodes
  | restore uri =>
      rw [events, List.append_nil]
      exact hreflects.restore hfaithful hsound uri
  | forget uri => exact hreflects.forget hfaithful hsound uri
  | discover document =>
      by_cases hopen : workspace.isOpen document.uri = true
      · have hskip : workspace.discover document = workspace := by
          rw [Workspace.discover, if_pos hopen]
        rw [events, if_pos hopen, List.append_nil, Workspace.step, hskip]
        exact hreflects
      · have hclosed : document.uri ∉ workspace.opened :=
          fun hmem => hopen (List.contains_iff_mem.2 hmem)
        rw [events, if_neg hopen] at hdecodes ⊢
        exact hreflects.discover hfaithful hsound hclosed (hdecodes _ List.mem_cons_self)
  | restart config timestamp =>
      rw [events, List.forall_mem_append] at hdecodes
      obtain ⟨hbuilds, hstate⟩ := hdecodes
      rw [events, ← List.append_assoc]
      exact (keptByReading_reflects.flushAll log hreflects hsound hbuilds).restart hfaithful config
        timestamp hsound (hstate _ List.mem_cons_self)

/-- What the actions of a run build is reflected. -/
theorem Reflects.run (hfaithful : Faithful holds) (hreflects : Reflects holds workspace log)
    (hreachable : workspace.Reachable) (actions : List Action)
    (hdecodes : ∀ event ∈ workspace.history actions, event.Decodes) :
    Reflects holds (workspace.run actions) (log ++ workspace.history actions) := by
  induction actions generalizing workspace log with
  | nil =>
      rw [history, List.append_nil]
      exact hreflects
  | cons action rest ih =>
      rw [history, List.forall_mem_append] at hdecodes
      obtain ⟨hnow, hlater⟩ := hdecodes
      rw [history, ← List.append_assoc]
      exact ih (hreflects.step hfaithful hreachable.sound action hnow)
        (hreachable.step action) hlater

/-- After any run from an empty workspace over an empty faithful cache, closed
and restarted as often as may be, every document has the symbols, the references
and the summary of its last build, and one without a build since it was last
forgotten has none of them. -/
theorem run_holds_lastBuild (hfaithful : Faithful holds) (config : Config) {cache : σ}
    (hempty : holds cache fun _ => none) (actions : List Action)
    (hdecodes : ∀ event ∈ (new config cache).history actions, event.Decodes)
    (uri : String) :
    let workspace := (new config cache).run actions
    let build? := lastBuild? ((new config cache).history actions) uri
    workspace.symbols.get? uri = build?.map (·.symbols) ∧
      workspace.fetch? uri = build?.map (·.references) ∧
        workspace.references.summary? uri = build?.map (·.references.summary) := by
  have hreflects : Reflects holds ((new config cache).run actions)
      ((new config cache).history actions) :=
    (reflects_new config hempty).run hfaithful (Reachable.new config cache) actions hdecodes
  exact ⟨hreflects.symbols uri, hreflects.fetch? hfaithful uri, hreflects.summary uri⟩

end

/-! ### A restart with an edit put off and a document that is only cached -/

def restartActions : List Action :=
  [.edit declaringDocument, .discover usingDocument, .restart {} 0, .restore "a"]

theorem history_restartActions :
    (new {} MemoryCache.empty).history restartActions =
      let start := new {} MemoryCache.empty
      let stopped := start.run (restartActions.take 2)
      [.built (start.build usingDocument), .built (stopped.build declaringDocument),
        .saved (.new 0 stopped.flushAll.knownUris)] :=
  rfl

theorem decodes_restartActions :
    ∀ event ∈ (new {} MemoryCache.empty).history restartActions, event.Decodes := by
  rw [history_restartActions]
  refine List.forall_mem_cons.2 ⟨?_, List.forall_mem_cons.2 ⟨?_, ?_⟩⟩
  · decide +kernel
  · decide +kernel
  · have hsaved : SavedState.new 0 ((new {} MemoryCache.empty).run
        (restartActions.take 2)).flushAll.knownUris = ⟨0, ["a", "b"]⟩ := by
      cbv
    rw [List.forall_mem_singleton, hsaved]
    decide +kernel

theorem run_holds_lastBuild_restartActions :
    let start : Workspace MemoryCache := new {} MemoryCache.empty
    MemoryCache.Holds MemoryCache.empty (fun _ => none) ∧
      (∀ event ∈ start.history restartActions, event.Decodes) ∧
        (start.run restartActions).fetch? "b" = some (start.build usingDocument).references := by
  intro start
  have hrun := run_holds_lastBuild MemoryCache.faithful_holds {} MemoryCache.holds_empty
    restartActions decodes_restartActions "b"
  exact ⟨MemoryCache.holds_empty, decodes_restartActions, hrun.2.1⟩

end SymbolIndex.Workspace
