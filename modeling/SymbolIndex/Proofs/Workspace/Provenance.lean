import SymbolIndex.Proofs.Workspace.Transparency

/-!
# Where tables come from

A cache may hold more than the workspace over it knows: the tables of an earlier
run that ended without notice, or that was never taken up.  As long as nobody
else writes to the cache, whatever the workspace takes from it was read from a
document, and of a document that it knows the summary at hand is that of the
references, open or in the cache.  This is kept by every operation, also by the
end of a run within it and by a start over any such cache.
-/

namespace SymbolIndex

open Function

/-! ## Genuine tables -/

/-- Read from a document, and stored in a form that reads as what it was. -/
structure SymbolTable.Genuine (table : SymbolTable) : Prop where
  read : ∃ document, SymbolTable.ofDocument document = table
  decodes : Stored.Decodes table

/-- Read from a document, and stored in a form that reads as what it was. -/
structure ReferenceTable.Genuine (table : ReferenceTable) : Prop where
  read : ∃ document symbols source, ReferenceTable.ofDocument document symbols source = table
  decodes : Stored.Decodes table

theorem SymbolTable.Genuine.hash {table : SymbolTable} (hgenuine : table.Genuine) :
    table.hash = uriHash table.uri := by
  obtain ⟨document, rfl⟩ := hgenuine.read
  rfl

theorem ReferenceTable.Genuine.hash {table : ReferenceTable} (hgenuine : table.Genuine) :
    table.hash = uriHash table.uri := by
  obtain ⟨document, symbols, source, rfl⟩ := hgenuine.read
  rfl

namespace ByteStore

/-- The value that the contents hold under a key. -/
def stored? {α : Type} [Stored α] (contents : Contents) (key : String) : Option α :=
  contents key >>= Stored.decode?

section

variable {α : Type} [Stored α] {contents : Contents}

theorem stored?_update_self {value : α} (hdecodes : Stored.Decodes value) (key : String) :
    stored? (update contents key (some (Stored.encode value))) key = some value := by
  rw [stored?, update_self]
  exact hdecodes

theorem stored?_update_of_ne {key other : String} (hne : other ≠ key)
    (bytes? : Option (List UInt8)) :
    (stored? (update contents key bytes?) other : Option α) = stored? contents other := by
  rw [stored?, stored?, update_of_ne hne]

theorem stored?_update_none (contents : Contents) (key : String) :
    (stored? (update contents key none) key : Option α) = none := by
  rw [stored?, update_self]
  rfl

/-- A faithful store reads what its contents hold. -/
theorem Faithful.toOption_readValue {σ : Type} [ByteStore σ] {holds : σ → Contents → Prop}
    (hfaithful : Faithful holds) {store : σ} (hholds : holds store contents) (key : String) :
    (ByteStore.readValue store key).toOption.join = (stored? contents key : Option α) := by
  rw [ByteStore.readValue, hfaithful.read hholds, stored?]
  cases contents key with
  | none => rfl
  | some bytes =>
      dsimp only
      rw [Option.bind_eq_bind, Option.bind_some]
      cases (Stored.decode? bytes : Option α) <;> rfl

end

/-- The tables that the contents hold are genuine, each under the name of its document. -/
structure GenuineContents (contents : Contents) : Prop where
  symbols : ∀ uri (table : SymbolTable), stored? contents (symbolsKey uri) = some table →
    table.Genuine ∧ table.uri = uri
  references : ∀ uri (table : ReferenceTable),
    stored? contents (referencesKey uri) = some table → table.Genuine ∧ table.uri = uri

namespace GenuineContents

theorem empty : GenuineContents fun _ => none where
  symbols := fun _ _ hstored => absurd hstored (by simp [stored?])
  references := fun _ _ hstored => absurd hstored (by simp [stored?])

variable {contents : Contents} (hcontents : GenuineContents contents)

include hcontents

/-- A genuine table may be written under the name of its document. -/
theorem writeSymbols {table : SymbolTable} (hgenuine : table.Genuine) :
    GenuineContents
      (update contents (symbolsKey table.uri) (some (Stored.encode table))) where
  symbols := by
    intro uri other hstored
    by_cases heq : uri = table.uri
    · rw [heq, stored?_update_self hgenuine.decodes, Option.some_inj] at hstored
      exact ⟨hstored ▸ hgenuine, hstored ▸ heq.symm⟩
    · rw [stored?_update_of_ne (symbolsKey_injective.ne heq)] at hstored
      exact hcontents.symbols uri other hstored
  references := by
    intro uri other hstored
    rw [stored?_update_of_ne (symbolsKey_ne_referencesKey table.uri uri).symm] at hstored
    exact hcontents.references uri other hstored

/-- A genuine table of references may be written under the name of its document. -/
theorem writeReferences {table : ReferenceTable} (hgenuine : table.Genuine) :
    GenuineContents
      (update contents (referencesKey table.uri) (some (Stored.encode table))) where
  symbols := by
    intro uri other hstored
    rw [stored?_update_of_ne (symbolsKey_ne_referencesKey uri table.uri)] at hstored
    exact hcontents.symbols uri other hstored
  references := by
    intro uri other hstored
    by_cases heq : uri = table.uri
    · rw [heq, stored?_update_self hgenuine.decodes, Option.some_inj] at hstored
      exact ⟨hstored ▸ hgenuine, hstored ▸ heq.symm⟩
    · rw [stored?_update_of_ne (referencesKey_injective.ne heq)] at hstored
      exact hcontents.references uri other hstored

theorem writeState (bytes : List UInt8) :
    GenuineContents (update contents stateKey (some bytes)) where
  symbols := by
    intro uri other hstored
    rw [stored?_update_of_ne (symbolsKey_ne_stateKey uri)] at hstored
    exact hcontents.symbols uri other hstored
  references := by
    intro uri other hstored
    rw [stored?_update_of_ne (referencesKey_ne_stateKey uri)] at hstored
    exact hcontents.references uri other hstored

theorem delete (key : String) : GenuineContents (update contents key none) where
  symbols := by
    intro uri other hstored
    by_cases heq : symbolsKey uri = key
    · rw [heq, stored?_update_none] at hstored
      cases hstored
    · rw [stored?_update_of_ne heq] at hstored
      exact hcontents.symbols uri other hstored
  references := by
    intro uri other hstored
    by_cases heq : referencesKey uri = key
    · rw [heq, stored?_update_none] at hstored
      cases hstored
    · rw [stored?_update_of_ne heq] at hstored
      exact hcontents.references uri other hstored

end GenuineContents

/-- A faithful store that can be emptied too. -/
structure Reliable {σ : Type} [ByteStore σ] (holds : σ → Contents → Prop) : Prop
    extends Faithful holds where
  clear : ∀ {store contents}, holds store contents →
    holds (ByteStore.clear store).after fun _ => none

end ByteStore

theorem MemoryCache.reliable_holds : ByteStore.Reliable MemoryCache.Holds :=
  { faithful_holds with clear := fun _ => holds_empty }

namespace Workspace

open SymbolIndex.ByteStore

variable {σ : Type} {holds : σ → Contents → Prop} {workspace : Workspace σ}
variable {contents : Contents}

/-! ## The invariant -/

/-- The symbols of a document are at hand, or its summary is. -/
def Knows (workspace : Workspace σ) (uri : String) : Prop :=
  (workspace.symbols.get? uri).isSome = true ∨ (workspace.references.summary? uri).isSome = true

instance (workspace : Workspace σ) (uri : String) : Decidable (workspace.Knows uri) :=
  inferInstanceAs (Decidable (_ ∨ _))

/-- Of a document that is known and not open, the summary at hand is that of the references in the
contents. -/
def Agrees (workspace : Workspace σ) (contents : Contents) (uri : String) : Prop :=
  workspace.Knows uri → workspace.references.get? uri = none → ∀ table : ReferenceTable,
    stored? contents (referencesKey uri) = some table →
      workspace.references.summary? uri = some table.summary

/-- All tables, at hand and in the contents of the cache, are genuine. -/
structure Genuine (holds : σ → Contents → Prop) (workspace : Workspace σ)
    (contents : Contents) : Prop where
  held : holds workspace.cache contents
  stored : GenuineContents contents
  symbols : ∀ uri table, workspace.symbols.get? uri = some table → table.Genuine
  symbolsFiled : workspace.symbols.Filed
  references : ∀ uri table, workspace.references.get? uri = some table →
    table.Genuine ∧ workspace.references.summary? uri = some table.summary ∧
      uri ∈ workspace.opened
  referencesFiled : workspace.references.Filed

/-- All tables are genuine, and the summaries at hand are right. -/
def Coherent (holds : σ → Contents → Prop) (workspace : Workspace σ) : Prop :=
  ∃ contents, Genuine holds workspace contents ∧ ∀ uri, workspace.Agrees contents uri

/-- Over genuine contents a new workspace is coherent. -/
theorem coherent_new (config : Config) {cache : σ} (hholds : holds cache contents)
    (hcontents : GenuineContents contents) : Coherent holds (new config cache) := by
  refine ⟨contents, ?_, ?_⟩
  · exact {
      held := hholds
      stored := hcontents
      symbols := fun _ _ hfound => absurd hfound (by simp [new, SymbolStore.get?,
        SymbolStore.resident?, SymbolStore.empty])
      symbolsFiled := SymbolStore.filed_empty uriHash
      references := fun _ _ hfound => absurd hfound (by simp [new, ReferenceStore.get?,
        ReferenceStore.new])
      referencesFiled := fun _ hmem => absurd hmem List.not_mem_nil }
  · rintro uri (hknown | hknown)
    · cases hknown
    · cases hknown

namespace Agrees

variable {uri : String}

/-- Only what is at hand and in the contents of the document matters. -/
theorem congr (hagrees : workspace.Agrees contents uri) {other : Workspace σ}
    {contents' : Contents}
    (hsymbols : other.symbols.get? uri = workspace.symbols.get? uri)
    (hopen : other.references.get? uri = workspace.references.get? uri)
    (hsummary : other.references.summary? uri = workspace.references.summary? uri)
    (hstored : (stored? contents' (referencesKey uri) : Option ReferenceTable) =
      stored? contents (referencesKey uri)) : other.Agrees contents' uri := by
  rw [Agrees, Knows, hsymbols, hopen, hsummary, hstored]
  exact hagrees

theorem of_open {table : ReferenceTable} (hopen : workspace.references.get? uri = some table) :
    workspace.Agrees contents uri := by
  intro _ hfree
  rw [hopen] at hfree
  cases hfree

theorem of_unstored
    (hstored : (stored? contents (referencesKey uri) : Option ReferenceTable) = none) :
    workspace.Agrees contents uri := by
  intro _ _ table htable
  rw [hstored] at htable
  cases htable

/-- A summary agrees if it is that of the stored references. -/
theorem of_stored {table : ReferenceTable}
    (hstored : stored? contents (referencesKey uri) = some table)
    (hsummary : workspace.references.summary? uri = some table.summary) :
    workspace.Agrees contents uri := by
  intro _ _ other hother
  rw [hstored, Option.some_inj] at hother
  rw [hsummary, hother]

end Agrees

/-! ## Reading documents -/

/-- An open document that is read again has genuine tables. -/
theorem Coherent.rebuild (hcoherent : Coherent holds workspace) (hsound : workspace.Sound)
    {document : Document} (hopen : document.uri ∈ workspace.opened)
    (hdecodes : (Event.built (workspace.build document)).Decodes) :
    Coherent holds (workspace.rebuild document) := by
  obtain ⟨contents, hgenuine, hagrees⟩ := hcoherent
  have hsymbols := hsound.symbols_read document
  have hreferences := hsound.references_rebuild document
  have hsummary := hsound.summary_rebuild document
  refine ⟨contents, ?_, ?_⟩
  · exact {
      held := hgenuine.held
      stored := hgenuine.stored
      symbols := by
        intro uri table hfound
        have hput := (hsymbols uri).symm.trans hfound
        split at hput
        · cases hput
          exact ⟨⟨document, rfl⟩, hdecodes.1⟩
        · exact hgenuine.symbols uri table hput
      symbolsFiled := hgenuine.symbolsFiled.add (hsound.hash_symbols document)
      references := by
        intro uri table hfound
        rw [hreferences] at hfound
        rw [hsummary]
        by_cases heq : uri = document.uri
        · rw [if_pos heq] at hfound ⊢
          cases hfound
          exact ⟨⟨⟨document, _, _, rfl⟩, hdecodes.2⟩, rfl, heq ▸ hopen⟩
        · rw [if_neg heq] at hfound ⊢
          exact hgenuine.references uri table hfound
      referencesFiled := hgenuine.referencesFiled.add (hsound.hash_references document) }
  · intro uri
    by_cases heq : uri = document.uri
    · have hfound := hreferences uri
      rw [if_pos heq] at hfound
      exact Agrees.of_open hfound
    · apply (hagrees uri).congr _ _ _ rfl
      · exact (hsymbols uri).trans (if_neg heq)
      · exact (hreferences uri).trans (if_neg heq)
      · exact (hsummary uri).trans (if_neg heq)

theorem Coherent.markOpen (hcoherent : Coherent holds workspace) (uri : String) :
    Coherent holds (workspace.markOpen uri) := by
  obtain ⟨contents, hgenuine, hagrees⟩ := hcoherent
  have hopened := mem_opened_markOpen workspace uri
  rw [markOpen_eq]
  refine ⟨contents, { hgenuine with references := ?_ }, hagrees⟩
  intro other table hfound
  obtain ⟨htable, hsummary, hopen⟩ := hgenuine.references other table hfound
  exact ⟨htable, hsummary, (hopened other).2 (Or.inl hopen)⟩

theorem keptByReading_coherent :
    KeptByReading fun (workspace : Workspace σ) _ => Coherent holds workspace where
  withEdits := by
    rintro workspace log ⟨contents, hgenuine, hagrees⟩ edits
    exact ⟨contents, { hgenuine with }, hagrees⟩
  markOpen hcoherent := hcoherent.markOpen
  rebuild hcoherent hsound _ hopen hdecodes := hcoherent.rebuild hsound hopen hdecodes

/-! ## Tables from the cache -/

/-- Genuine symbols may be put in for a document. -/
theorem Genuine.addSymbols (hgenuine : Genuine holds workspace contents)
    (hsound : workspace.Sound) {table : SymbolTable} (htable : table.Genuine) :
    Genuine holds { workspace with symbols := workspace.symbols.add table } contents ∧
      ∀ uri, uri ≠ table.uri →
        (workspace.symbols.add table).get? uri = workspace.symbols.get? uri := by
  have hhash : table.hash = workspace.symbols.hashOf table.uri := by
    rw [hsound.symbolsDigest]
    exact htable.hash
  have hget := SymbolStore.get?_add hsound.symbols hhash
  refine ⟨{ hgenuine with symbols := ?_, symbolsFiled := hgenuine.symbolsFiled.add hhash }, ?_⟩
  · intro uri other hfound
    have hput := (hget uri).symm.trans hfound
    split at hput
    · cases hput
      exact htable
    · exact hgenuine.symbols uri other hput
  · intro uri hne
    rw [hget, if_neg hne]

/-- Genuine references of a document may be opened, whatever there was of it. -/
theorem Genuine.reopen (hgenuine : Genuine holds workspace contents) (hsound : workspace.Sound)
    {table : ReferenceTable} (htable : table.Genuine)
    (hagrees : ∀ other, other ≠ table.uri → workspace.Agrees contents other) :
    Coherent holds
      ({ workspace with references := workspace.references.add table }.markOpen table.uri) := by
  have hhash : table.hash = workspace.references.hashOf table.uri := by
    rw [hsound.referencesDigest]
    exact htable.hash
  have hget := ReferenceStore.get?_add hsound.references hhash
  have hsummary := ReferenceStore.summary?_add hsound.references hhash
  have hopened := mem_opened_markOpen
    { workspace with references := workspace.references.add table } table.uri
  rw [markOpen_eq]
  refine ⟨contents, ?_, ?_⟩
  · refine { hgenuine with
      references := ?_, referencesFiled := hgenuine.referencesFiled.add hhash }
    intro other found hfound
    have hput := (hget other).symm.trans hfound
    by_cases heq : other = table.uri
    · rw [if_pos heq] at hput
      cases hput
      exact ⟨htable, (hsummary other).trans (if_pos heq), (hopened other).2 (Or.inr heq)⟩
    · rw [if_neg heq] at hput
      obtain ⟨hkept, hsame, hopen⟩ := hgenuine.references other found hput
      exact ⟨hkept, ((hsummary other).trans (if_neg heq)).trans hsame,
        (hopened other).2 (Or.inl hopen)⟩
  · intro other
    by_cases heq : other = table.uri
    · exact Agrees.of_open ((hget other).trans (if_pos heq))
    · exact (hagrees other heq).congr rfl ((hget other).trans (if_neg heq))
        ((hsummary other).trans (if_neg heq)) rfl

/-! ## Tables to the cache -/

/-- Writing the tables at hand keeps the contents genuine, and right about what is not at hand. -/
theorem Genuine.overlay (hgenuine : Genuine holds workspace contents)
    (hagrees : ∀ uri, workspace.Agrees contents uri) {entries : List (String × List UInt8)}
    (hentries : ∀ entry ∈ entries,
      (∃ table : SymbolTable, table.Genuine ∧ symbolsEntry table = entry) ∨
        ∃ table : ReferenceTable, table.Genuine ∧
          workspace.references.get? table.uri = some table ∧ referencesEntry table = entry) :
    GenuineContents (overlay contents entries) ∧
      ∀ uri, workspace.Agrees (overlay contents entries) uri := by
  have hstored := hgenuine.stored
  clear hgenuine
  rw [ByteStore.overlay]
  induction entries generalizing contents with
  | nil => exact ⟨hstored, hagrees⟩
  | cons entry rest ih =>
      obtain ⟨hentry, hrest⟩ := List.forall_mem_cons.1 hentries
      rcases hentry with ⟨table, htable, rfl⟩ | ⟨table, htable, hopen, rfl⟩
      · apply ih _ hrest (hstored.writeSymbols htable)
        intro uri
        exact (hagrees uri).congr rfl rfl rfl
          (stored?_update_of_ne (symbolsKey_ne_referencesKey table.uri uri).symm _)
      · apply ih _ hrest (hstored.writeReferences htable)
        intro uri
        by_cases heq : uri = table.uri
        · exact Agrees.of_open (heq ▸ hopen)
        · exact (hagrees uri).congr rfl rfl rfl
            (stored?_update_of_ne (referencesKey_injective.ne heq) _)

section

variable [ByteStore σ]

/-! ## The start of a run -/

theorem Genuine.cachedSymbols? (hfaithful : Faithful holds)
    (hgenuine : Genuine holds workspace contents) (uri : String) :
    workspace.cachedSymbols? uri = stored? contents (symbolsKey uri) :=
  hfaithful.toOption_readValue hgenuine.held _

theorem Genuine.cachedReferences? (hfaithful : Faithful holds)
    (hgenuine : Genuine holds workspace contents) (uri : String) :
    workspace.cachedReferences? uri = stored? contents (referencesKey uri) :=
  hfaithful.toOption_readValue hgenuine.held _

/-- Of a document that is known, the summary at hand is that of the references, wherever they
are. -/
theorem Coherent.fetch? (hfaithful : Faithful holds) (hcoherent : Coherent holds workspace)
    {uri : String} {table : ReferenceTable} (hfetch : workspace.fetch? uri = some table) :
    table.Genuine ∧ table.uri = uri ∧
      (workspace.Knows uri → workspace.references.summary? uri = some table.summary) := by
  obtain ⟨contents, hgenuine, hagrees⟩ := hcoherent
  rw [Workspace.fetch?, ReferenceStore.fetch?] at hfetch
  cases hfound : workspace.references.get? uri with
  | some other =>
      rw [hfound, Option.some_or, Option.some_inj] at hfetch
      subst hfetch
      obtain ⟨htable, hsummary, -⟩ := hgenuine.references uri other hfound
      exact ⟨htable, ReferenceStore.uri_of_get? hfound, fun _ => hsummary⟩
  | none =>
      rw [hfound, Option.none_or] at hfetch
      have hstored := (hgenuine.cachedReferences? hfaithful uri).symm.trans hfetch
      obtain ⟨htable, huri⟩ := hgenuine.stored.references uri table hstored
      exact ⟨htable, huri, fun hknown => hagrees uri hknown hfound table hstored⟩

/-- A document whose symbols were loaded, or had been, gets the summary of its references. -/
theorem Coherent.loadSummary (hfaithful : Faithful holds)
    (hgenuine : Genuine holds workspace contents) (hsound : workspace.Sound) {uri : String}
    (hagrees : ∀ other, other ≠ uri → workspace.Agrees contents other)
    (hknown : (workspace.references.summary? uri).isSome = true →
      workspace.Agrees contents uri) :
    Coherent holds (workspace.loadSummary uri).1 := by
  rw [Workspace.loadSummary, hgenuine.cachedReferences? hfaithful]
  by_cases hsummary : (workspace.references.summary? uri).isSome = true
  · rw [if_pos hsummary]
    refine ⟨contents, hgenuine, ?_⟩
    intro other
    by_cases heq : other = uri
    · exact heq ▸ hknown hsummary
    · exact hagrees other heq
  · rw [if_neg hsummary]
    cases hstored : (stored? contents (referencesKey uri) : Option ReferenceTable) with
    | none =>
        refine ⟨contents, hgenuine, ?_⟩
        intro other
        by_cases heq : other = uri
        · exact Agrees.of_unstored (heq ▸ hstored)
        · exact hagrees other heq
    | some table =>
        obtain ⟨htable, rfl⟩ := hgenuine.stored.references uri table hstored
        have hhash : table.summary.hash = workspace.references.hashOf table.summary.uri := by
          rw [hsound.referencesDigest]
          exact htable.hash
        have hput := ReferenceStore.summary?_addSummary hsound.references hhash
        have hopen := ReferenceStore.get?_addSummary workspace.references table.summary
        refine ⟨contents, ?_, ?_⟩
        · refine { hgenuine with
            references := ?_, referencesFiled := hgenuine.referencesFiled.addSummary _ }
          intro other opened hfound
          obtain ⟨hopened, hother, hmem⟩ :=
            hgenuine.references other opened ((hopen other).symm.trans hfound)
          have hne : other ≠ table.summary.uri := by
            rintro rfl
            exact hsummary (Option.isSome_of_mem hother)
          exact ⟨hopened, ((hput other).trans (if_neg hne)).trans hother, hmem⟩
        · intro other
          by_cases heq : other = table.uri
          · exact heq ▸ Agrees.of_stored hstored ((hput table.uri).trans (if_pos rfl))
          · exact (hagrees other heq).congr rfl (hopen other)
              ((hput other).trans (if_neg heq)) rfl

/-- Loading a document keeps its summary in step with its references. -/
theorem Coherent.load (hfaithful : Faithful holds) (hcoherent : Coherent holds workspace)
    (hsound : workspace.Sound) (uri : String) :
    Coherent holds ((workspace.loadSymbols uri).1.loadSummary uri).1 := by
  have hloaded := hsound.loadSymbols uri
  obtain ⟨contents, hgenuine, hagrees⟩ := hcoherent
  rw [Workspace.loadSymbols, hgenuine.cachedSymbols? hfaithful] at hloaded ⊢
  split at hloaded
  · rename_i hcontains
    rw [if_pos hcontains]
    exact Coherent.loadSummary hfaithful hgenuine hsound (fun other _ => hagrees other)
      fun _ => hagrees uri
  · rename_i hcontains
    rw [if_neg hcontains]
    cases hstored : (stored? contents (symbolsKey uri) : Option SymbolTable) with
    | none =>
        exact Coherent.loadSummary hfaithful hgenuine hsound (fun other _ => hagrees other)
          fun _ => hagrees uri
    | some table =>
        rw [hstored] at hloaded
        obtain ⟨htable, rfl⟩ := hgenuine.stored.symbols uri table hstored
        obtain ⟨hadded, hothers⟩ := hgenuine.addSymbols hsound htable
        apply Coherent.loadSummary hfaithful hadded hloaded
        · intro other hne
          exact (hagrees other).congr (hothers other hne) rfl rfl rfl
        · -- With a summary the document was known before its symbols were.
          intro hsummary _ hfree other hother
          exact hagrees table.uri (Or.inr hsummary) hfree other hother

theorem Coherent.loadAll (hfaithful : Faithful holds) (hcoherent : Coherent holds workspace)
    (hsound : workspace.Sound) (uris : List String) :
    Coherent holds (workspace.loadAll uris).1 := by
  induction uris generalizing workspace with
  | nil => exact hcoherent
  | cons uri rest ih =>
      exact ih (hcoherent.load hfaithful hsound uri) ((hsound.loadSymbols uri).loadSummary uri)

theorem Coherent.startup (hreliable : Reliable holds) (hcoherent : Coherent holds workspace)
    (hsound : workspace.Sound) : Coherent holds workspace.startup.1 := by
  rw [Workspace.startup]
  split
  · obtain ⟨contents, hgenuine, -⟩ := hcoherent
    refine ⟨fun _ => none, ?_, fun uri => Agrees.of_unstored rfl⟩
    exact { hgenuine with
      held := hreliable.clear hgenuine.held
      stored := GenuineContents.empty }
  · split
    · exact hcoherent.loadAll hreliable.toFaithful hsound _
    · exact hcoherent

/-! ## Closing and restoring -/

/-- Putting away the references of a document leaves its summary right. -/
theorem Coherent.evict (hfaithful : Faithful holds) (hcoherent : Coherent holds workspace)
    (hsound : workspace.Sound) (uri : String) :
    Coherent holds ((workspace.markClosed uri).closeReferences uri) := by
  obtain ⟨contents, hgenuine, hagrees⟩ := hcoherent
  have hopened := mem_opened_markClosed workspace uri
  cases hfound : workspace.references.get? uri with
  | none =>
      have hclosed : (workspace.markClosed uri).references.get? uri = none := hfound
      rw [closeReferences_of_none hclosed]
      refine ⟨contents, { hgenuine with references := ?_ }, hagrees⟩
      intro other table hother
      obtain ⟨htable, hsummary, hopen⟩ := hgenuine.references other table hother
      have hne : other ≠ uri := by
        rintro rfl
        exact absurd (hfound.symm.trans hother) (by simp)
      exact ⟨htable, hsummary, (hopened other).2 ⟨hopen, hne⟩⟩
  | some table =>
      obtain rfl := ReferenceStore.uri_of_get? hfound
      obtain ⟨htable, hsummary, -⟩ := hgenuine.references table.uri table hfound
      obtain ⟨hwritten, hafter⟩ :=
        hfaithful.writeValue hgenuine.held (referencesKey table.uri) table
      have hclosed : (workspace.markClosed table.uri).references.get? table.uri =
          some table := hfound
      have hget := ReferenceStore.get?_takeOpen hsound.references table.uri
      rw [closeReferences_of_some hclosed hwritten]
      refine ⟨update contents (referencesKey table.uri) (some (Stored.encode table)), ?_, ?_⟩
      · refine { hgenuine with
          held := hafter
          stored := hgenuine.stored.writeReferences htable
          references := ?_
          referencesFiled := hgenuine.referencesFiled.takeOpen table.uri }
        intro other kept hother
        have hstays := (hget other).symm.trans hother
        by_cases heq : other = table.uri
        · rw [if_pos heq] at hstays
          cases hstays
        · rw [if_neg heq] at hstays
          obtain ⟨hkept, hsame, hopen⟩ := hgenuine.references other kept hstays
          exact ⟨hkept, hsame, (hopened other).2 ⟨hopen, heq⟩⟩
      · intro other
        by_cases heq : other = table.uri
        · rw [heq]
          exact Agrees.of_stored (stored?_update_self htable.decodes _) hsummary
        · exact (hagrees other).congr rfl ((hget other).trans (if_neg heq)) rfl
            (stored?_update_of_ne (referencesKey_injective.ne heq) _)

theorem Coherent.writeSymbols (hfaithful : Faithful holds) (hcoherent : Coherent holds workspace)
    {uri : String} {table : SymbolTable} (hfound : workspace.symbols.get? uri = some table) :
    Coherent holds (workspace.writeSymbols table) := by
  obtain ⟨contents, hgenuine, hagrees⟩ := hcoherent
  refine ⟨_, { hgenuine with
    held := (hfaithful.writeValue hgenuine.held (symbolsKey table.uri) table).2
    stored := hgenuine.stored.writeSymbols (hgenuine.symbols uri table hfound) }, ?_⟩
  intro other
  exact (hagrees other).congr rfl rfl rfl
    (stored?_update_of_ne (symbolsKey_ne_referencesKey table.uri other).symm _)

theorem Coherent.close (hfaithful : Faithful holds) (hcoherent : Coherent holds workspace)
    (hsound : workspace.Sound) (uri : String)
    (hdecodes : ∀ event ∈ workspace.builds (workspace.edits.flush uri).1.toList,
      event.Decodes) : Coherent holds (workspace.close uri) := by
  have hflushed : Coherent holds (workspace.flush uri) :=
    keptByReading_coherent.flush [] hcoherent hsound uri hdecodes
  have hevicted := hflushed.evict hfaithful (hsound.flush uri) uri
  rw [Workspace.close]
  split
  · rename_i table hfound
    exact hevicted.writeSymbols hfaithful hfound
  · exact hevicted

theorem Coherent.restore (hfaithful : Faithful holds) (hcoherent : Coherent holds workspace)
    (hsound : workspace.Sound) (uri : String) : Coherent holds (workspace.restore uri).1 := by
  rw [Workspace.restore]
  split
  · exact hcoherent.markOpen uri
  · obtain ⟨contents, hgenuine, hagrees⟩ := hcoherent
    dsimp only
    split
    · exact ⟨contents, hgenuine, hagrees⟩
    · rename_i symbols hsymbols
      obtain ⟨hloaded, hsoundLoaded, hothers⟩ :
          Genuine holds { workspace with symbols := symbols } contents ∧
            { workspace with symbols := symbols }.Sound ∧ ∀ other, other ≠ uri →
              symbols.get? other = workspace.symbols.get? other := by
        split at hsymbols
        · cases hsymbols
          exact ⟨hgenuine, hsound, fun _ _ => rfl⟩
        · obtain ⟨table, hcached, rfl⟩ := Option.map_eq_some_iff.1 hsymbols
          rw [hgenuine.cachedSymbols? hfaithful] at hcached
          obtain ⟨htable, rfl⟩ := hgenuine.stored.symbols uri table hcached
          obtain ⟨hadded, hothers⟩ := hgenuine.addSymbols hsound htable
          exact ⟨hadded, hsound.addSymbols table, hothers⟩
      have hstill : ∀ other, other ≠ uri →
          { workspace with symbols := symbols }.Agrees contents other := by
        intro other hne
        exact (hagrees other).congr (hothers other hne) rfl rfl rfl
      rw [hloaded.cachedReferences? hfaithful]
      split
      · rename_i hstored
        refine ⟨contents, hloaded, ?_⟩
        intro other
        by_cases heq : other = uri
        · exact Agrees.of_unstored (heq ▸ hstored)
        · exact hstill other heq
      · rename_i table hstored
        obtain ⟨htable, rfl⟩ := hgenuine.stored.references uri table hstored
        exact hloaded.reopen hsoundLoaded htable hstill

/-! ## Forgetting and discovering -/

theorem Coherent.forget (hfaithful : Faithful holds) (hcoherent : Coherent holds workspace)
    (hsound : workspace.Sound) (uri : String) : Coherent holds (workspace.forget uri) := by
  obtain ⟨contents, hgenuine, hagrees⟩ := hcoherent
  have hsymbols := SymbolStore.get?_remove hsound.symbols uri
  have hreferences := ReferenceStore.get?_remove hsound.references uri
  have hsummary := ReferenceStore.summary?_remove hsound.references uri
  refine ⟨update (update contents (symbolsKey uri) none) (referencesKey uri) none, ?_, ?_⟩
  · exact {
      held := hfaithful.deleteTables hgenuine.held uri
      stored := (hgenuine.stored.delete _).delete _
      symbols := by
        intro other table hfound
        have hstays := (hsymbols other).symm.trans hfound
        split at hstays
        · cases hstays
        · exact hgenuine.symbols other table hstays
      symbolsFiled := hgenuine.symbolsFiled.remove uri
      references := by
        intro other table hfound
        have hstays := (hreferences other).symm.trans hfound
        by_cases heq : other = uri
        · rw [if_pos heq] at hstays
          cases hstays
        · rw [if_neg heq] at hstays
          obtain ⟨htable, hsame, hopen⟩ := hgenuine.references other table hstays
          exact ⟨htable, ((hsummary other).trans (if_neg heq)).trans hsame,
            (mem_opened_markClosed workspace uri other).2 ⟨hopen, heq⟩⟩
      referencesFiled := hgenuine.referencesFiled.remove uri }
  · intro other
    by_cases heq : other = uri
    · rw [heq]
      exact Agrees.of_unstored (stored?_update_none _ _)
    · apply (hagrees other).congr ((hsymbols other).trans (if_neg heq))
        ((hreferences other).trans (if_neg heq)) ((hsummary other).trans (if_neg heq))
      rw [stored?_update_of_ne (referencesKey_injective.ne heq),
        stored?_update_of_ne (symbolsKey_ne_referencesKey uri other).symm]

theorem Coherent.discover (hfaithful : Faithful holds) (hcoherent : Coherent holds workspace)
    (hsound : workspace.Sound) {document : Document} (hclosed : document.uri ∉ workspace.opened)
    (hdecodes : (Event.built (workspace.build document)).Decodes) :
    Coherent holds (workspace.discover document) := by
  obtain ⟨contents, hgenuine, hagrees⟩ := hcoherent
  obtain ⟨hwritten, hafter⟩ := hfaithful.writeValue hgenuine.held
    (referencesKey document.uri) (workspace.read document).2
  have htable : (workspace.read document).2.Genuine := ⟨⟨document, _, _, rfl⟩, hdecodes.2⟩
  have hsymbols := hsound.symbols_read document
  have hhash : (workspace.read document).2.summary.hash =
      workspace.references.hashOf (workspace.read document).2.summary.uri :=
    hsound.hash_references document
  have hsummary := ReferenceStore.summary?_addSummary hsound.references hhash
  have hopen := ReferenceStore.get?_addSummary workspace.references
    (workspace.read document).2.summary
  rw [discover_of_closed hclosed hwritten]
  refine ⟨update contents (referencesKey document.uri)
    (some (Stored.encode (workspace.read document).2)), ?_, ?_⟩
  · exact {
      held := hafter
      stored := hgenuine.stored.writeReferences htable
      symbols := by
        intro uri table hfound
        have hput := (hsymbols uri).symm.trans hfound
        split at hput
        · cases hput
          exact ⟨⟨document, rfl⟩, hdecodes.1⟩
        · exact hgenuine.symbols uri table hput
      symbolsFiled := hgenuine.symbolsFiled.add (hsound.hash_symbols document)
      references := by
        intro uri table hfound
        obtain ⟨hkept, hsame, hmem⟩ :=
          hgenuine.references uri table ((hopen uri).symm.trans hfound)
        have hne : uri ≠ document.uri := by
          rintro rfl
          exact hclosed hmem
        exact ⟨hkept, ((hsummary uri).trans (if_neg hne)).trans hsame, hmem⟩
      referencesFiled := hgenuine.referencesFiled.addSummary _ }
  · intro uri
    by_cases heq : uri = document.uri
    · rw [heq]
      exact Agrees.of_stored (stored?_update_self htable.decodes _)
        ((hsummary document.uri).trans (if_pos rfl))
    · exact (hagrees uri).congr ((hsymbols uri).trans (if_neg heq)) (hopen uri)
        ((hsummary uri).trans (if_neg heq))
        (stored?_update_of_ne (referencesKey_injective.ne heq) _)

/-! ## The end of a run -/

theorem Coherent.shutdown (hfaithful : Faithful holds) (timestamp : UInt64)
    (hcoherent : Coherent holds workspace) (hsound : workspace.Sound)
    (hdecodes : ∀ event ∈ workspace.builds workspace.edits.flushAll.1, event.Decodes) :
    Coherent holds (workspace.shutdown timestamp) := by
  obtain ⟨contents, hgenuine, hagrees⟩ : Coherent holds workspace.flushAll :=
    keptByReading_coherent.flushAll [] hcoherent hsound hdecodes
  have hlast := hsound.flushAll
  have hentries : ∀ entry ∈ workspace.flushAll.tableEntries,
      (∃ table : SymbolTable, table.Genuine ∧ symbolsEntry table = entry) ∨
        ∃ table : ReferenceTable, table.Genuine ∧
          workspace.flushAll.references.get? table.uri = some table ∧
            referencesEntry table = entry := by
    intro entry hmem
    rcases List.mem_append.1 hmem with hmem | hmem
    · obtain ⟨table, htable, rfl⟩ := List.mem_map.1 hmem
      have hget := hgenuine.symbolsFiled.get?_of_mem hlast.symbols htable
      exact Or.inl ⟨table, hgenuine.symbols _ table hget, rfl⟩
    · obtain ⟨table, htable, rfl⟩ := List.mem_map.1 hmem
      have hget := hgenuine.referencesFiled.get?_of_mem hlast.references htable
      exact Or.inr ⟨table, (hgenuine.references _ table hget).1, hget, rfl⟩
  obtain ⟨hstored, hright⟩ := hgenuine.overlay hagrees hentries
  have htables := hfaithful.writeAll hgenuine.held workspace.flushAll.tableEntries
  have hstate := (hfaithful.writeValue htables stateKey
    (SavedState.new timestamp workspace.flushAll.knownUris)).2
  rw [shutdown_eq]
  dsimp only
  rw [foldl_persist]
  refine ⟨_, { hgenuine with
    held := (hfaithful.flush hstate).2
    stored := hstored.writeState _ }, ?_⟩
  intro uri
  exact (hright uri).congr rfl rfl rfl (stored?_update_of_ne (referencesKey_ne_stateKey uri) _)

/-! ## Workspaces over a cache that nobody else writes to -/

theorem Coherent.step (hreliable : Reliable holds) (hcoherent : Coherent holds workspace)
    (hsound : workspace.Sound) (action : Action)
    (hdecodes : ∀ event ∈ workspace.events action, event.Decodes) :
    Coherent holds (workspace.step action) := by
  have hfaithful := hreliable.toFaithful
  cases action with
  | openDocument document =>
      exact keptByReading_coherent.openDocument [] hcoherent hsound
        (hdecodes _ List.mem_cons_self)
  | edit document => exact keptByReading_coherent.edit [] hcoherent document
  | flush uri => exact keptByReading_coherent.flush [] hcoherent hsound uri hdecodes
  | flushAll => exact keptByReading_coherent.flushAll [] hcoherent hsound hdecodes
  | advance duration =>
      exact keptByReading_coherent.advance [] hcoherent hsound duration hdecodes
  | close uri => exact hcoherent.close hfaithful hsound uri hdecodes
  | restore uri => exact hcoherent.restore hfaithful hsound uri
  | forget uri => exact hcoherent.forget hfaithful hsound uri
  | discover document =>
      by_cases hopen : workspace.isOpen document.uri = true
      · rw [Workspace.step, Workspace.discover, if_pos hopen]
        exact hcoherent
      · have hclosed : document.uri ∉ workspace.opened :=
          fun hmem => hopen (List.contains_iff_mem.2 hmem)
        rw [events, if_neg hopen] at hdecodes
        exact hcoherent.discover hfaithful hsound hclosed (hdecodes _ List.mem_cons_self)
  | restart config timestamp =>
      rw [events, List.forall_mem_append] at hdecodes
      obtain ⟨contents, hgenuine, -⟩ :=
        hcoherent.shutdown hfaithful timestamp hsound hdecodes.1
      have hnew := coherent_new { config with clearCache := false } hgenuine.held hgenuine.stored
      exact hnew.startup hreliable (sound_new _ _)

/-- The workspaces that the operations lead to, from a new one over a cache that holds genuine
tables, such as an earlier run has left, and that nobody else writes to.  What is stored reads as
what it was. -/
inductive Undisturbed (holds : σ → Contents → Prop) : Workspace σ → Prop
  | new (config : Config) {cache : σ} {contents : Contents} (hholds : holds cache contents)
      (hcontents : GenuineContents contents) : Undisturbed holds (new config cache)
  | step {workspace : Workspace σ} (action : Action) (hbefore : Undisturbed holds workspace)
      (hdecodes : ∀ event ∈ workspace.events action, event.Decodes) :
      Undisturbed holds (workspace.step action)
  | shutdown {workspace : Workspace σ} (timestamp : UInt64)
      (hbefore : Undisturbed holds workspace)
      (hdecodes : ∀ event ∈ workspace.builds workspace.edits.flushAll.1, event.Decodes) :
      Undisturbed holds (workspace.shutdown timestamp)
  | startup {workspace : Workspace σ} (hbefore : Undisturbed holds workspace) :
      Undisturbed holds workspace.startup.1

theorem Undisturbed.reachable (hundisturbed : Undisturbed holds workspace) :
    workspace.Reachable := by
  induction hundisturbed with
  | new config hholds hcontents => exact Reachable.new config _
  | step action _ _ ih => exact ih.step action
  | shutdown timestamp _ _ ih => exact ih.shutdown timestamp
  | startup _ ih => exact ih.startup

theorem Undisturbed.coherent (hreliable : Reliable holds)
    (hundisturbed : Undisturbed holds workspace) : Coherent holds workspace := by
  induction hundisturbed with
  | new config hholds hcontents => exact coherent_new config hholds hcontents
  | step action hbefore hdecodes ih =>
      exact ih.step hreliable hbefore.reachable.sound action hdecodes
  | shutdown timestamp hbefore hdecodes ih =>
      exact ih.shutdown hreliable.toFaithful timestamp hbefore.reachable.sound hdecodes
  | startup hbefore ih => exact ih.startup hreliable hbefore.reachable.sound

end

end Workspace

end SymbolIndex
