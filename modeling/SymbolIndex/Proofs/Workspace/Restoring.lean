import SymbolIndex.Proofs.Cache.Faithful
import SymbolIndex.Proofs.Workspace.Freshness

/-!
# Restoring documents

Restoring takes the symbols of a document from the cache first, unless they are at hand, and its
references next. When it fails, the references at hand, the open documents and the edits are as they
were; the symbols too, unless it got as far as the references.
-/

namespace SymbolIndex.Workspace

open ByteStore

variable {σ : Type} [ByteStore σ]

/-! ## The two steps -/

/-- The symbols at hand once those of a document are among them, if they can be had. -/
def withSymbolsOf? (workspace : Workspace σ) (uri : String) : Option SymbolStore :=
  if workspace.symbols.contains uri then some workspace.symbols
  else (workspace.cachedSymbols? uri).map workspace.symbols.add

section

variable {workspace : Workspace σ} {uri : String}

theorem restore_open (hopen : workspace.references.isOpen uri = true) :
    workspace.restore uri = (workspace.markOpen uri, true) := by
  rw [restore, if_pos hopen]

theorem restore_without_symbols (hclosed : workspace.references.isOpen uri = false)
    (hsymbols : workspace.withSymbolsOf? uri = none) :
    workspace.restore uri = (workspace, false) := by
  rw [restore, if_neg (ne_true_of_eq_false hclosed), ← withSymbolsOf?, hsymbols]

/-- Without references the symbols are at hand all the same. -/
theorem restore_without_references (hclosed : workspace.references.isOpen uri = false)
    {symbols : SymbolStore} (hsymbols : workspace.withSymbolsOf? uri = some symbols)
    (hreferences : workspace.cachedReferences? uri = none) :
    workspace.restore uri = ({ workspace with symbols := symbols }, false) := by
  have hsame : { workspace with symbols := symbols }.cachedReferences? uri = none := hreferences
  rw [restore, if_neg (ne_true_of_eq_false hclosed), ← withSymbolsOf?, hsymbols]
  dsimp only
  rw [hsame]

/-- With both tables a document is open. -/
theorem restore_complete (hclosed : workspace.references.isOpen uri = false)
    {symbols : SymbolStore} (hsymbols : workspace.withSymbolsOf? uri = some symbols)
    {table : ReferenceTable} (hreferences : workspace.cachedReferences? uri = some table) :
    workspace.restore uri =
      ({ workspace with
        symbols := symbols, references := workspace.references.add table }.markOpen uri, true) := by
  have hsame : { workspace with symbols := symbols }.cachedReferences? uri = some table :=
    hreferences
  rw [restore, if_neg (ne_true_of_eq_false hclosed), ← withSymbolsOf?, hsymbols]
  dsimp only
  rw [hsame]

/-- What restoring can do: it finds the references open, it fails for want of one of the two tables,
or it has both. -/
theorem restore_cases (workspace : Workspace σ) (uri : String) :
    (workspace.references.isOpen uri = true ∧
      workspace.restore uri = (workspace.markOpen uri, true)) ∨
    (workspace.references.isOpen uri = false ∧
      (workspace.withSymbolsOf? uri = none ∨ workspace.cachedReferences? uri = none) ∧
      workspace.restore uri =
        ({ workspace with symbols := (workspace.withSymbolsOf? uri).getD workspace.symbols },
          false)) ∨
    (workspace.references.isOpen uri = false ∧
      ∃ symbols table, workspace.withSymbolsOf? uri = some symbols ∧
        workspace.cachedReferences? uri = some table ∧
        workspace.restore uri =
          ({ workspace with
            symbols := symbols, references := workspace.references.add table }.markOpen uri,
            true)) := by
  cases hopen : workspace.references.isOpen uri with
  | true => exact Or.inl ⟨rfl, restore_open hopen⟩
  | false =>
    cases hsymbols : workspace.withSymbolsOf? uri with
    | none => exact Or.inr (Or.inl ⟨rfl, Or.inl rfl, restore_without_symbols hopen hsymbols⟩)
    | some symbols =>
      cases hreferences : workspace.cachedReferences? uri with
      | none =>
        exact Or.inr (Or.inl ⟨rfl, Or.inr rfl,
          restore_without_references hopen hsymbols hreferences⟩)
      | some table =>
        exact Or.inr (Or.inr ⟨rfl, symbols, table, rfl, rfl,
          restore_complete hopen hsymbols hreferences⟩)

theorem cache_restore (workspace : Workspace σ) (uri : String) :
    (workspace.restore uri).1.cache = workspace.cache := by
  rcases restore_cases workspace uri with
    ⟨-, hrestore⟩ | ⟨-, -, hrestore⟩ | ⟨-, symbols, table, -, -, hrestore⟩
  · rw [hrestore, markOpen_eq]
  · rw [hrestore]
  · rw [hrestore, markOpen_eq]

/-! ## Failing -/

theorem withSymbolsOf?_getD (hkept : workspace.symbols.contains uri = true ∨
    workspace.cachedSymbols? uri = none) :
    (workspace.withSymbolsOf? uri).getD workspace.symbols = workspace.symbols := by
  rw [withSymbolsOf?]
  split
  · rfl
  · rename_i hmissing
    rw [hkept.resolve_left hmissing]
    rfl

theorem restore_eq_of_failed (hfailed : (workspace.restore uri).2 = false) :
    (workspace.restore uri).1 =
        { workspace with symbols := (workspace.withSymbolsOf? uri).getD workspace.symbols } ∧
      (workspace.withSymbolsOf? uri = none ∨ workspace.cachedReferences? uri = none) := by
  rcases restore_cases workspace uri with
    ⟨-, hrestore⟩ | ⟨-, hmissing, hrestore⟩ | ⟨-, symbols, table, -, -, hrestore⟩
  · rw [hrestore] at hfailed
    cases hfailed
  · rw [hrestore]
    exact ⟨rfl, hmissing⟩
  · rw [hrestore] at hfailed
    cases hfailed

/-- Restoring that fails changes nothing but the symbols, and these only if the cache has symbols of
the document that were not at hand, and no references: then its symbols have come among them. -/
theorem restore_failed (hfailed : (workspace.restore uri).2 = false) :
    let after := (workspace.restore uri).1
    (after.references = workspace.references ∧ after.opened = workspace.opened ∧
      after.edits = workspace.edits ∧ after.cache = workspace.cache ∧
      after.config = workspace.config) ∧
    (workspace.symbols.contains uri = true ∨ workspace.cachedSymbols? uri = none →
      after = workspace ∧ ∀ query, after.answer query = workspace.answer query) ∧
    ∀ table, workspace.symbols.contains uri = false → workspace.cachedSymbols? uri = some table →
      workspace.cachedReferences? uri = none ∧ after.symbols = workspace.symbols.add table ∧
      (workspace.Reachable → table.hash = uriHash table.uri → ∀ other,
        after.symbols.get? other =
          if other = table.uri then some table else workspace.symbols.get? other) := by
  intro after
  obtain ⟨hafter, hmissing⟩ : after = _ ∧ _ := restore_eq_of_failed hfailed
  refine ⟨?_, ?_, ?_⟩
  · rw [hafter]
    exact ⟨rfl, rfl, rfl, rfl, rfl⟩
  · intro hkept
    have hsame : after = workspace := by
      rw [hafter, withSymbolsOf?_getD hkept]
    rw [hsame]
    exact ⟨rfl, fun _ => rfl⟩
  · intro table hcontains hcached
    have hwith : workspace.withSymbolsOf? uri = some (workspace.symbols.add table) := by
      rw [withSymbolsOf?, hcontains, hcached]
      rfl
    have hsymbols : after.symbols = workspace.symbols.add table := by
      rw [hafter, hwith]
      rfl
    rw [hwith] at hmissing
    refine ⟨hmissing.resolve_left (by simp), hsymbols, ?_⟩
    intro hreachable hhash other
    have hfiled : table.hash = workspace.symbols.hashOf table.uri := by
      rw [hreachable.sound.symbolsDigest, hhash]
    rw [hsymbols, SymbolStore.get?_add hreachable.sound.symbols hfiled]

end

/-! ### A cache that has lost the references of a document -/

/-- What an earlier run has left of a document that declares a class. -/
def halfCache : MemoryCache :=
  (ByteStore.writeSymbols MemoryCache.empty (SymbolTable.ofDocument declaringDocument)).after

theorem restore_failed_at_hand :
    let workspace := (new {} halfCache).discover declaringDocument
    let lost := { workspace with cache := halfCache }
    (lost.restore "a").2 = false ∧ lost.symbols.contains "a" = true ∧
      (lost.restore "a").1.answer (.findSymbols "A") = lost.answer (.findSymbols "A") := by
  intro workspace lost
  have hfailed : (lost.restore "a").2 = false := by decide +kernel
  have hcontains : lost.symbols.contains "a" = true := by decide +kernel
  obtain ⟨-, hsame, -⟩ := restore_failed hfailed
  exact ⟨hfailed, hcontains, (hsame (Or.inl hcontains)).2 _⟩

/-- The class is not there before, and is after restoring its document has failed. -/
theorem restore_failed_changes_symbols :
    let workspace := new {} halfCache
    workspace.Reachable ∧ (workspace.restore "a").2 = false ∧
      workspace.answer (.findSymbols "A") = .symbols [] ∧
      (workspace.restore "a").1.answer (.findSymbols "A") ≠ .symbols [] := by
  refine ⟨Reachable.new _ _, ?_, ?_, ?_⟩
  · decide +kernel
  · decide +kernel
  · decide +kernel

end SymbolIndex.Workspace
