import SymbolIndex.Proofs.Reading.Locations
import SymbolIndex.Proofs.SymbolStore.Places
import SymbolIndex.Proofs.Workspace.Agreement
import SymbolIndex.Proofs.Workspace.Provenance

/-!
# The use that a search starts from

A search for uses finds the reference it was asked about.  What a workspace
knows was read from documents, so that symbols and references are located where
they are looked for.  Then a reference is among the uses of each symbol it
refers to: under one of its names in the index, in the scope of the class that
declares a member, or in the document of a variable or a private member.  Only a
name that is empty is not in the index.
-/

namespace SymbolIndex

/-! ## References of a table -/

namespace Scope

theorem references_subset (scope : Scope) : scope.references ⊆ scope.allReferences := by
  obtain ⟨location, children⟩ := scope
  intro reference hmem
  obtain ⟨child, hchild, hreference⟩ := List.mem_filterMap.1 hmem
  obtain ⟨earlier, later, rfl⟩ := List.append_of_mem hchild
  rw [allReferences, allReferencesIn_append, List.mem_append]
  cases child with
  | scope inner => cases hreference
  | reference other =>
      cases hreference
      exact Or.inr List.mem_cons_self

mutual

/-- What is found at a position is one of the references. -/
theorem mem_of_referenceAt? {position : Position} {reference : Reference} :
    (scope : Scope) → scope.referenceAt? position = some reference →
      reference ∈ scope.allReferences
  | ⟨location, children⟩ => by
      intro hfound
      rw [referenceAt?, Option.or_eq_some_iff] at hfound
      rcases hfound with hnested | ⟨-, hhere⟩
      · exact mem_of_nestedAt? children hnested
      · exact references_subset _ (List.mem_of_find?_eq_some hhere)

theorem mem_of_nestedAt? {position : Position} {reference : Reference} :
    (children : List ScopeChild) → nestedAt? position children = some reference →
      reference ∈ allReferencesIn children
  | [] => by
      intro hfound
      cases hfound
  | .reference _ :: rest => by
      intro hfound
      exact List.mem_cons_of_mem _ (mem_of_nestedAt? rest hfound)
  | .scope inner :: rest => by
      intro hfound
      rw [allReferencesIn, List.mem_append]
      rw [nestedAt?] at hfound
      split at hfound
      · rcases Option.or_eq_some_iff.1 hfound with hinner | ⟨-, hlater⟩
        · exact Or.inl (mem_of_referenceAt? inner hinner)
        · exact Or.inr (mem_of_nestedAt? rest hlater)
      · exact Or.inr (mem_of_nestedAt? rest hfound)

end

end Scope

namespace Workspace

open SymbolIndex.ByteStore
open SymbolIndex.Text

variable {σ : Type}

/-! ## Classes in scope -/

/-- A scope includes the class of every member that a class of it sees. -/
theorem scopeIncludes_of_owner {workspace : Workspace σ} {scope name : String}
    {hierarchy : Hierarchy} {owner : Declared} (hname : name ∈ TypeExpr.classNames scope)
    (hfound : workspace.symbols.hierarchy? name = some hierarchy)
    (howner : owner = hierarchy.root ∨ owner ∈ hierarchy.associated) :
    workspace.scopeIncludes scope owner.symbol.name = true := by
  rw [scopeIncludes, List.any_eq_true]
  refine ⟨name, hname, Bool.or_eq_true_iff.2 ?_⟩
  rcases howner with rfl | hinherited
  · obtain ⟨hequals, hclass⟩ :=
      SymbolStore.of_mem_findDeclared (SymbolStore.root_mem_classLike hfound)
    have hplain : SymbolStore.withoutBackslashes name = name :=
      SymbolStore.withoutBackslashes_of_mem_classNames hname
    rw [← SymbolStore.withoutBackslashes, hplain,
      SymbolStore.nameEquals_of_isClassLike hclass, eqIgnoringCase_comm] at hequals
    exact Or.inl hequals
  · refine Or.inr (List.any_eq_true.2 ⟨owner.symbol, ?_, eqIgnoringCase_iff.2 rfl⟩)
    rw [SymbolStore.associated, hfound]
    exact List.mem_map_of_mem hinherited

variable [ByteStore σ]

/-! ## Workspaces read from documents -/

/-- What the workspace knows of a document was read from it: symbols and references are located in
it, and the summary at hand is that of the references. -/
structure Intact (workspace : Workspace σ) : Prop where
  sound : workspace.Sound
  filed : workspace.symbols.Filed
  located : workspace.symbols.Located
  uses : ∀ uri table, workspace.fetch? uri = some table →
    ∀ reference ∈ table.references, reference.location.uri = uri
  summary : ∀ uri table, workspace.Knows uri → workspace.fetch? uri = some table →
    workspace.references.summary? uri = some table.summary

/-- All that is known was read from documents, if nobody else writes to the cache. -/
theorem Undisturbed.intact {holds : σ → Contents → Prop} {workspace : Workspace σ}
    (hreliable : Reliable holds) (hundisturbed : Undisturbed holds workspace) :
    workspace.Intact := by
  have hsound := hundisturbed.reachable.sound
  have hcoherent := hundisturbed.coherent hreliable
  have ⟨contents, hgenuine, _⟩ := hcoherent
  exact {
    sound := hsound
    filed := hgenuine.symbolsFiled
    located := by
      intro table htable symbol hsymbol
      have hget := hgenuine.symbolsFiled.get?_of_mem hsound.symbols htable
      obtain ⟨document, rfl⟩ := (hgenuine.symbols table.uri table hget).read
      exact SymbolTable.exists_location_of_mem_symbols hsymbol
    uses := by
      intro uri table hfetch reference hmem
      obtain ⟨htable, rfl, -⟩ := hcoherent.fetch? hreliable.toFaithful hfetch
      obtain ⟨document, symbols, source, rfl⟩ := htable.read
      exact ReferenceTable.uri_of_mem_references hmem
    summary := by
      intro uri table hknown hfetch
      exact (hcoherent.fetch? hreliable.toFaithful hfetch).2.2 hknown }

section

variable {workspace : Workspace σ} {target : Symbol} {reference : Reference}

/-- A member that a reference refers to belongs to the class that it was reached through. -/
theorem Intact.exists_owner (hintact : workspace.Intact)
    (hdistinct : workspace.symbols.DistinctlyLocated) {name : String} {hierarchy : Hierarchy}
    {member : Declared} (hmeant : workspace.symbols.Meant reference name hierarchy member)
    (htarget : target = { member.symbol with type := target.type }) :
    ∃ owner, (owner = hierarchy.root ∨ owner ∈ hierarchy.associated) ∧
      member ∈ owner.children ∧ workspace.ownerName target = owner.symbol.name := by
  obtain ⟨owner, howner, hclass, hmember, -⟩ :=
    SymbolStore.exists_owner_of_mem_visibleMembers hmeant.found hmeant.visible
  have hdeclared : owner ∈ workspace.symbols.allDeclared :=
    SymbolStore.declarations_subset _ (hintact.sound.symbols.classLike_subset _ hclass)
  have hdeclaring := hintact.sound.symbols.declaringType?_eq hintact.filed hintact.located
    hdistinct hdeclared (SymbolStore.of_mem_findDeclared hclass).2 hmember htarget
  refine ⟨owner, howner, hmember, ?_⟩
  rw [ownerName, hdeclaring]

/-- So the scope of the reference includes its class. -/
theorem Intact.scopeIncludes_ownerName (hintact : workspace.Intact)
    (hdistinct : workspace.symbols.DistinctlyLocated) {name : String} {hierarchy : Hierarchy}
    {member : Declared} (hmeant : workspace.symbols.Meant reference name hierarchy member)
    (htarget : target = { member.symbol with type := target.type }) :
    workspace.scopeIncludes reference.scope (workspace.ownerName target) = true := by
  obtain ⟨owner, howner, -, hname⟩ := hintact.exists_owner hdistinct hmeant htarget
  rw [hname]
  exact scopeIncludes_of_owner hmeant.scope hmeant.found howner

/-! ## Uses of what a reference refers to -/

variable {uri : String} {table : ReferenceTable} {policy : MemberPolicy}

/-- A use in the document of its target is found there, if it resolves. -/
theorem mem_usesInOwnDocument (hfetch : workspace.fetch? uri = some table)
    (hlisted : reference ∈ table.references)
    (hlocation : ∃ range, target.location = some ⟨uri, range⟩)
    (huse : isUseOf target reference = true) (hnamed : reference.isNamed target.name = true)
    (hresolves : ∃ symbol ∈ workspace.symbols.resolve reference .every,
      symbol.location = target.location) :
    reference ∈ workspace.usesInOwnDocument target := by
  obtain ⟨range, hlocation⟩ := hlocation
  obtain ⟨symbol, hsymbol, hsame⟩ := hresolves
  have hresolvesTo : workspace.resolvesTo reference target = true :=
    List.any_eq_true.2 ⟨symbol, hsymbol, beq_iff_eq.2 hsame⟩
  rw [usesInOwnDocument, hlocation, Option.bind_some, hfetch]
  exact List.mem_filter.2 ⟨hlisted, by simp [huse, hnamed, hresolvesTo]⟩

/-- A use in a known document is found by the name of its target. -/
theorem Intact.mem_findUses (hintact : workspace.Intact) (hknown : workspace.Knows uri)
    (hfetch : workspace.fetch? uri = some table) (hlisted : reference ∈ table.references)
    (hkind : reference.kind.isVariable = false) (hname : target.name ≠ "")
    (hnamed : reference.isNamed target.name = true) {p : Reference → Bool}
    (hp : p reference = true) : reference ∈ workspace.findUses target.name p := by
  apply mem_findUses_of_fetch? hintact.sound.references hfetch
    (hintact.summary uri table hknown hfetch) hname hkind
  exact List.mem_filter.2 ⟨hlisted, by simp [hnamed, hp]⟩

/-- A variable is found in the document it belongs to. -/
theorem Intact.mem_usesOf_of_isVariable (hintact : workspace.Intact)
    (hfetch : workspace.fetch? uri = some table) (hlisted : reference ∈ table.references)
    (hkind : reference.kind.isVariable = true)
    (htarget : target ∈ workspace.symbols.resolve reference policy) :
    reference ∈ workspace.usesOf target := by
  have hresolves : target ∈ workspace.symbols.resolve reference .every := by
    rw [SymbolStore.resolve_of_isVariable _ _ hkind] at htarget ⊢
    exact htarget
  rw [SymbolStore.resolve_of_isVariable _ _ hkind, SymbolStore.resolveVariable] at htarget
  split at htarget
  · exact absurd htarget List.not_mem_nil
  · rename_i symbols hsymbols
    obtain ⟨hchild, hmatch⟩ := List.mem_filter.1 htarget
    rw [Bool.and_eq_true, beq_iff_eq] at hmatch
    obtain ⟨hvariable, hname⟩ := hmatch
    have hplace := hintact.located symbols (SymbolStore.mem_tables_of_get? hsymbols) target
      (SymbolTable.children_scopeAt_subset symbols _ hchild)
    rw [SymbolStore.uri_of_get? hsymbols, hintact.uses uri table hfetch reference hlisted] at hplace
    have hmember : target.kind.isMember = false := by
      revert hvariable
      cases target.kind <;> decide
    rw [usesOf_of_isLocal workspace (Bool.or_eq_true_iff.2 (Or.inl hvariable))]
    apply mem_usesInOwnDocument hfetch hlisted hplace
    · simpa [isUseOf, hmember] using hkind
    · simp [Reference.isNamed, Reference.names, hname, eqIgnoringCase_iff]
    · exact ⟨target, hresolves, rfl⟩

/-- A member is found, by the class it belongs to or, where it is private, in its document. -/
theorem Intact.mem_usesOf_of_isMember (hintact : workspace.Intact)
    (hdistinct : workspace.symbols.DistinctlyLocated) (hknown : workspace.Knows uri)
    (hfetch : workspace.fetch? uri = some table) (hlisted : reference ∈ table.references)
    (hkind : reference.kind.isMember = true)
    (htarget : target ∈ workspace.symbols.resolve reference policy)
    (hprivate : target.isPrivate = true →
      ∀ location, target.location = some location → location.uri = uri)
    (hname : target.isPrivate = true ∨ reference.name ≠ "") :
    reference ∈ workspace.usesOf target := by
  rw [SymbolStore.resolve_of_isMember _ _ hkind] at htarget
  obtain ⟨name, hierarchy, member, hmeant, hsame⟩ :=
    SymbolStore.exists_meant_of_mem_resolveMember htarget
  have hsameKind : target.kind = reference.kind := by
    rw [hsame]
    exact hmeant.kind
  have hnameEquals : target.nameEquals reference.name = true := by
    rw [hsame]
    exact hmeant.named
  have hsameLocation : target.location = member.symbol.location := by rw [hsame]
  have hnamed : reference.isNamed target.name = true :=
    (SymbolStore.isNamed_iff (congrArg SymbolKind.isCaseSensitive hsameKind)).2
      ⟨reference.name, List.mem_cons_self, hnameEquals⟩
  have hmember : target.kind.isMember = true := hsameKind ▸ hkind
  have hvariable : target.kind.isVariable = false := by
    revert hmember
    cases target.kind <;> decide
  cases hhidden : target.isPrivate with
  | true =>
      obtain ⟨entry, hentry, hdeclared⟩ := List.mem_flatMap.1
        (hintact.sound.symbols.visibleMembers_subset hmeant.found hmeant.visible)
      obtain ⟨range, hlocation⟩ := hintact.located entry.table (List.mem_map_of_mem hentry) _
        (SymbolStore.symbol_mem_symbols hdeclared)
      rw [← hsameLocation] at hlocation
      have huri : entry.table.uri = uri := hprivate hhidden _ hlocation
      have hresolves := hintact.sound.symbols.exists_mem_resolveMember hmeant
      rw [← hsameLocation, ← SymbolStore.resolve_of_isMember _ .every hkind] at hresolves
      rw [usesOf_of_isLocal workspace (by simp [isLocal, hmember, hhidden])]
      apply mem_usesInOwnDocument hfetch hlisted ⟨range, huri ▸ hlocation⟩ _ hnamed hresolves
      simp [isUseOf, hsameKind, hkind]
  | false =>
      have htargetName : target.name ≠ "" :=
        SymbolStore.name_ne_empty_of_nameEquals hnameEquals (hname.resolve_left (by simp [hhidden]))
      have hincludes := hintact.scopeIncludes_ownerName hdistinct hmeant hsame
      rw [usesOf_of_isMember workspace (by simp [isLocal, hvariable, hhidden]) hmember]
      apply hintact.mem_findUses hknown hfetch hlisted (hsameKind ▸ hvariable) htargetName hnamed
      simp [hsameKind, hincludes]

/-- A class, a function, a constant or a namespace is found by its name. -/
theorem Intact.mem_usesOf_of_isIndexable (hintact : workspace.Intact)
    (hknown : workspace.Knows uri) (hfetch : workspace.fetch? uri = some table)
    (hlisted : reference ∈ table.references)
    (hvariable : reference.kind.isVariable = false) (hmember : reference.kind.isMember = false)
    (htarget : target ∈ workspace.symbols.resolve reference policy) :
    reference ∈ workspace.usesOf target := by
  have hname : target.isIndexable = true → target.name ≠ "" := by
    intro hindexable
    simp only [Symbol.isIndexable, Bool.and_eq_true, bne_iff_ne] at hindexable
    exact hindexable.1.1
  rcases SymbolStore.kind_cases reference.kind with hkind | hkind | hkind | hkind | hkind
  · rw [hvariable] at hkind
    cases hkind
  · rw [hmember] at hkind
    cases hkind
  · rw [SymbolStore.resolve_of_isClassLike _ _ hkind] at htarget
    obtain ⟨-, hindexable, hequals, hclass⟩ :=
      hintact.sound.symbols.mem_find_iff_mem_allSymbols.1 htarget
    rw [usesOf_of_isClassLike workspace hclass]
    have hcase : target.kind.isCaseSensitive = reference.kind.isCaseSensitive :=
      (SymbolStore.isCaseSensitive_of_isClassLike hclass).trans
        (SymbolStore.isCaseSensitive_of_isClassLike hkind).symm
    exact hintact.mem_findUses hknown hfetch hlisted hvariable (hname hindexable)
      ((SymbolStore.isNamed_iff hcase).2 ⟨reference.name, List.mem_cons_self, hequals⟩) hkind
  · rw [SymbolStore.resolve_of_isGlobal _ _ hkind] at htarget
    obtain ⟨name, hmem, hfound⟩ := SymbolStore.exists_find_of_mem_resolveGlobal htarget
    obtain ⟨-, hindexable, hequals, hsame⟩ :=
      hintact.sound.symbols.mem_find_iff_mem_allSymbols.1 hfound
    rw [beq_iff_eq] at hsame
    rw [usesOf_of_isGlobal workspace (hsame ▸ hkind)]
    apply hintact.mem_findUses hknown hfetch hlisted hvariable (hname hindexable)
    · exact (SymbolStore.isNamed_iff (congrArg SymbolKind.isCaseSensitive hsame)).2
        ⟨name, hmem, hequals⟩
    · rw [hsame, beq_self_eq_true]
  · rw [SymbolStore.resolve, hkind] at htarget
    exact absurd htarget List.not_mem_nil

/-- A reference is a use of every symbol that it refers to, except for a private member of another
document and for a member without a name. -/
theorem Intact.mem_usesOf (hintact : workspace.Intact)
    (hdistinct : workspace.symbols.DistinctlyLocated) (hknown : workspace.Knows uri)
    (hfetch : workspace.fetch? uri = some table) (hlisted : reference ∈ table.references)
    (htarget : target ∈ workspace.symbols.resolve reference policy)
    (hprivate : reference.kind.isMember = true → target.isPrivate = true →
      ∀ location, target.location = some location → location.uri = uri)
    (hname : reference.kind.isMember = true → target.isPrivate = true ∨ reference.name ≠ "") :
    reference ∈ workspace.usesOf target := by
  cases hmember : reference.kind.isMember with
  | true =>
      exact hintact.mem_usesOf_of_isMember hdistinct hknown hfetch hlisted hmember htarget
        (hprivate hmember) (hname hmember)
  | false =>
      cases hvariable : reference.kind.isVariable with
      | true => exact hintact.mem_usesOf_of_isVariable hfetch hlisted hvariable htarget
      | false =>
          exact hintact.mem_usesOf_of_isIndexable hknown hfetch hlisted hvariable hmember htarget

/-! ## The answer to a search -/

/-- What a reference stands for is looked up once its document is fresh. -/
theorem symbolsAt_of_referenceAt? {position : Position}
    (hreference : (workspace.referenceAt? uri position).1 = some reference) :
    (workspace.symbolsAt uri position policy).1 =
      (workspace.flush uri).symbols.resolve reference policy := by
  simp only [symbolsAt, hreference]
  rfl

/-- The reference that is asked about is found among the uses of what it refers to. -/
theorem Intact.exists_found (hintact : workspace.Intact)
    (hdistinct : workspace.symbols.DistinctlyLocated) (hknown : workspace.Knows uri)
    (hsettled : uri ∉ workspace.pendingUris)
    {position : Position} (hreference : (workspace.referenceAt? uri position).1 = some reference)
    (htarget : target ∈ (workspace.symbolsAt uri position .override).1)
    (hprivate : reference.kind.isMember = true → target.isPrivate = true →
      ∀ location, target.location = some location → location.uri = uri)
    (hname : reference.kind.isMember = true → target.isPrivate = true ∨ reference.name ≠ "") :
    ∃ found ∈ (workspace.findReferences uri position true).1,
      reference.samePlace found = true := by
  have hflush := flush_of_not_pending hsettled
  have hresolves := htarget
  rw [symbolsAt_of_referenceAt? hreference, hflush] at hresolves
  obtain ⟨table, hfetch, hfound⟩ := Option.bind_eq_some_iff.1 hreference
  rw [hflush] at hfetch
  have hlisted := Scope.mem_of_referenceAt? table.root hfound
  have huse := hintact.mem_usesOf hdistinct hknown hfetch hlisted hresolves hprivate hname
  apply exists_mem_findReferences htarget
  rw [hflush]
  exact List.mem_mergeSort.2 huse

end

/-- Over a reliable cache that nobody else writes to, once no edit is put off and if declarations
have locations of their own, the search finds the reference that it starts from.  The document has
to be one that the workspace knows, and the reference has to refer to something, to no private
member of another document and, if to members, not by an empty name to public ones only.  Each place
is listed once, in order. -/
theorem findReferences_contains_query {holds : σ → Contents → Prop} (hreliable : Reliable holds)
    {workspace : Workspace σ} (hundisturbed : Undisturbed holds workspace)
    (hsettled : workspace.pendingUris = [])
    (hdistinct : workspace.symbols.DistinctlyLocated) {uri : String}
    (hknown : workspace.Knows uri) {position : Position} {reference : Reference}
    (hreference : (workspace.referenceAt? uri position).1 = some reference)
    (htargets : (workspace.symbolsAt uri position .override).1 ≠ [])
    (hprivate : ∀ target ∈ (workspace.symbolsAt uri position .override).1,
      target.kind.isMember = true → target.isPrivate = true →
        ∀ location, target.location = some location → location.uri = uri)
    (hname : reference.kind.isMember = true → reference.name ≠ "" ∨
      ∃ target ∈ (workspace.symbolsAt uri position .override).1, target.isPrivate = true) :
    (∃ found ∈ (workspace.findReferences uri position true).1,
      found.location.uri = reference.location.uri ∧ found.start = reference.start) ∧
        (workspace.findReferences uri position true).1.Pairwise Reference.Before := by
  have hintact := hundisturbed.intact hreliable
  refine ⟨?_, findReferences_increasing workspace uri position true⟩
  -- A reference without a name is found through a target that is looked for in its document.
  obtain ⟨target, htarget, hnamed⟩ : ∃ target ∈ (workspace.symbolsAt uri position .override).1,
      reference.kind.isMember = true → target.isPrivate = true ∨ reference.name ≠ "" := by
    by_cases hempty : reference.kind.isMember = true ∧ reference.name = ""
    · obtain ⟨target, htarget, hhidden⟩ := (hname hempty.1).resolve_left (by simp [hempty.2])
      exact ⟨target, htarget, fun _ => Or.inl hhidden⟩
    · obtain ⟨target, htarget⟩ := List.exists_mem_of_ne_nil _ htargets
      exact ⟨target, htarget, fun hmember => Or.inr fun hnil => hempty ⟨hmember, hnil⟩⟩
  have hresolves := htarget
  rw [symbolsAt_of_referenceAt? hreference] at hresolves
  have hhere : reference.kind.isMember = true → target.isPrivate = true →
      ∀ location, target.location = some location → location.uri = uri := by
    intro hmember
    apply hprivate target htarget
    rw [SymbolStore.kind_of_mem_resolve hmember hresolves]
    exact hmember
  obtain ⟨found, hfound, hplace⟩ :=
    hintact.exists_found hdistinct hknown (by simp [hsettled]) hreference htarget hhere hnamed
  obtain ⟨huri, hstart⟩ := Reference.samePlace_iff.1 hplace
  exact ⟨found, hfound, huri.symm, hstart.symm⟩

/-! ### A use that is found, and two that are missed -/

theorem undisturbed_new : Undisturbed MemoryCache.Holds (new {} MemoryCache.empty) :=
  .new {} MemoryCache.holds_empty GenuineContents.empty

theorem undisturbed_oneClass : Undisturbed MemoryCache.Holds oneClass :=
  .step (.openDocument usingDocument)
    (.step (.openDocument declaringDocument) undisturbed_new (by decide +kernel))
    (by decide +kernel)

/-- The only use of the class is found when it is asked about. -/
theorem findReferences_contains_query_oneClass :
    Undisturbed MemoryCache.Holds oneClass ∧ oneClass.pendingUris = [] ∧
      oneClass.symbols.DistinctlyLocated ∧ oneClass.Knows "b" ∧
      (oneClass.symbolsAt "b" ⟨0, 10⟩ .override).1 ≠ [] ∧
      ∃ reference, (oneClass.referenceAt? "b" ⟨0, 10⟩).1 = some reference ∧
        ∃ found ∈ (oneClass.findReferences "b" ⟨0, 10⟩ true).1,
          found.location.uri = reference.location.uri ∧ found.start = reference.start := by
  have hsettled : oneClass.pendingUris = [] := by decide +kernel
  have hdistinct : oneClass.symbols.DistinctlyLocated := by decide +kernel
  have hknown : oneClass.Knows "b" := by decide +kernel
  have htargets : (oneClass.symbolsAt "b" ⟨0, 10⟩ .override).1 ≠ [] := by decide +kernel
  have hclasses : ∀ target ∈ (oneClass.symbolsAt "b" ⟨0, 10⟩ .override).1,
      target.kind.isMember = false := by
    decide +kernel
  have hasked : (oneClass.referenceAt? "b" ⟨0, 10⟩).1.any (fun reference =>
      !reference.kind.isMember) = true := by
    decide +kernel
  obtain ⟨reference, hreference, hclass⟩ := (Option.any_eq_true _ _).1 hasked
  refine ⟨undisturbed_oneClass, hsettled, hdistinct, hknown, htargets, reference, hreference, ?_⟩
  refine (findReferences_contains_query MemoryCache.reliable_holds undisturbed_oneClass hsettled
    hdistinct hknown hreference htargets ?_ ?_).1
  · intro target htarget hmember
    rw [hclasses target htarget] at hmember
    cases hmember
  · intro hmember
    rw [hmember] at hclass
    cases hclass

/-- The search misses the reference that it starts from, which refers to something and to nothing
that other documents cannot see. -/
structure MissesQuery (workspace : Workspace MemoryCache) (uri : String) (position : Position)
    (reference : Reference) : Prop where
  undisturbed : Undisturbed MemoryCache.Holds workspace
  settled : workspace.pendingUris = []
  distinct : workspace.symbols.DistinctlyLocated
  asked : (workspace.referenceAt? uri position).1 = some reference
  targets : (workspace.symbolsAt uri position .override).1 ≠ []
  visible : ∀ target ∈ (workspace.symbolsAt uri position .override).1, target.isPrivate = false
  missed : ∀ found ∈ (workspace.findReferences uri position true).1,
    found.samePlace reference = false

/-- A method whose name is missing. -/
def namelessDocument : Document :=
  Snippet.document "a" "<?php class A { function () {} }"
    [Snippet.classDeclaration [] "A" none [] [Snippet.method [] "" [] none []]]

def nameless : Workspace MemoryCache :=
  (new {} MemoryCache.empty).openDocument namelessDocument

/-- Another run was over the cache, but it is not taken up. -/
def leftover : Workspace MemoryCache :=
  (new {} ((new {} MemoryCache.empty).discover usingDocument).cache).openDocument
    declaringDocument

theorem undisturbed_nameless : Undisturbed MemoryCache.Holds nameless :=
  .step (.openDocument namelessDocument) undisturbed_new (by decide +kernel)

theorem undisturbed_leftover : Undisturbed MemoryCache.Holds leftover := by
  have hearlier : Undisturbed MemoryCache.Holds
      ((new {} MemoryCache.empty).discover usingDocument) :=
    .step (.discover usingDocument) undisturbed_new (by decide +kernel)
  obtain ⟨contents, hgenuine, -⟩ := hearlier.coherent MemoryCache.reliable_holds
  exact .step (.openDocument declaringDocument) (.new {} hgenuine.held hgenuine.stored)
    (by decide +kernel)

/-- The summary of the other run is missing, and so is the use. -/
theorem missesQuery_leftover :
    ∃ reference, MissesQuery leftover "b" ⟨0, 10⟩ reference := by
  have hsettled : leftover.pendingUris = [] := by decide +kernel
  have hasked : (leftover.referenceAt? "b" ⟨0, 10⟩).1.any (fun reference =>
      reference.location.uri == "b") = true := by
    decide +kernel
  have hclasses : ∀ target ∈ (leftover.symbolsAt "b" ⟨0, 10⟩ .override).1,
      target.kind.isClassLike = true ∧ target.isPrivate = false := by
    decide +kernel
  have hknown : ∀ uri ∈ leftover.references.known, uri = "a" := by decide +kernel
  obtain ⟨reference, hreference, huri⟩ := (Option.any_eq_true _ _).1 hasked
  refine ⟨reference, {
    undisturbed := undisturbed_leftover
    settled := hsettled
    distinct := by decide +kernel
    asked := hreference
    targets := by decide +kernel
    visible := fun target htarget => (hclasses target htarget).2
    missed := ?_ }⟩
  intro found hfound
  obtain ⟨target, htarget, hordered⟩ := mem_of_mem_findReferences hfound
  have huse := mem_of_mem_orderedUses hordered
  rw [flush_of_not_pending (by simp [hsettled]),
    usesOf_of_isClassLike leftover (hclasses target htarget).1] at huse
  obtain ⟨uri, hcandidate, table, hfetch, hlisted⟩ := ReferenceStore.mem_find_iff.1 huse
  have hintact := undisturbed_leftover.intact MemoryCache.reliable_holds
  have hhere := hintact.uses uri table hfetch found (List.mem_filter.1 hlisted).1
  rw [hknown uri (ReferenceStore.candidates_subset hintact.sound.references _ hcandidate)] at hhere
  rw [Reference.samePlace, hhere, beq_iff_eq.1 huri]
  rfl

theorem exists_asked_nameless :
    ∃ reference, (nameless.referenceAt? "a" ⟨0, 24⟩).1 = some reference ∧
      reference.kind = .method ∧ reference.name = "" ∧
        "A" ∈ TypeExpr.classNames reference.scope := by
  have hasked : (nameless.referenceAt? "a" ⟨0, 24⟩).1.any (fun reference =>
      reference.kind == .method && (reference.name == "" &&
        (TypeExpr.classNames reference.scope).contains "A")) = true := by
    decide +kernel
  obtain ⟨reference, hreference, hmatch⟩ := (Option.any_eq_true _ _).1 hasked
  refine ⟨reference, hreference, ?_⟩
  simpa using hmatch

theorem exists_meant_nameless {reference : Reference} (hkind : reference.kind = .method)
    (hname : reference.name = "") (hscope : "A" ∈ TypeExpr.classNames reference.scope) :
    ∃ hierarchy member, nameless.symbols.Meant reference "A" hierarchy member := by
  have hclass : (nameless.symbols.hierarchy? "A").any (fun hierarchy =>
      hierarchy.root.children.any fun member =>
        member.symbol.kind == .method && member.symbol.nameEquals "") = true := by
    decide +kernel
  obtain ⟨hierarchy, hfound, hchild⟩ := (Option.any_eq_true _ _).1 hclass
  obtain ⟨member, hmem, hmethod⟩ := List.any_eq_true.1 hchild
  rw [Bool.and_eq_true, beq_iff_eq] at hmethod
  have hseen : member ∈ hierarchy.visibleMembers :=
    List.mem_append_left _ (List.mem_filter.2 ⟨hmem, by rw [hmethod.1]; rfl⟩)
  exact ⟨hierarchy, member, hscope, hfound, hseen, hmethod.1.trans hkind.symm, hname ▸ hmethod.2⟩

/-- No method of the document is private, and the index has none of their names. -/
theorem of_mem_resolveMember_nameless {reference : Reference} (hkind : reference.kind = .method)
    {policy : MemberPolicy} {target : Symbol}
    (htarget : target ∈ nameless.symbols.resolveMember reference policy) :
    target.kind = .method ∧ target.isPrivate = false ∧
      nameless.references.candidates target.name = [] := by
  have hdeclared : ∀ declared ∈ nameless.symbols.allDeclared,
      declared.symbol.isPrivate = false ∧ (declared.symbol.kind = .method →
        nameless.references.candidates declared.symbol.name = []) := by
    decide +kernel
  obtain ⟨name, hierarchy, member, hmeant, hsame⟩ :=
    SymbolStore.exists_meant_of_mem_resolveMember htarget
  have hsound := undisturbed_nameless.reachable.sound.symbols
  obtain ⟨hvisible, hnowhere⟩ :=
    hdeclared member (hsound.visibleMembers_subset hmeant.found hmeant.visible)
  rw [hsame]
  exact ⟨hmeant.kind.trans hkind, hvisible, hnowhere (hmeant.kind.trans hkind)⟩

/-- No use is found by an empty name. -/
theorem missesQuery_nameless :
    ∃ reference, MissesQuery nameless "a" ⟨0, 24⟩ reference := by
  have hsettled : nameless.pendingUris = [] := by decide +kernel
  have hflush : nameless.flush "a" = nameless := flush_of_not_pending (by simp [hsettled])
  obtain ⟨reference, hreference, hkind, hname, hscope⟩ := exists_asked_nameless
  have htargets : (nameless.symbolsAt "a" ⟨0, 24⟩ .override).1 =
      nameless.symbols.resolveMember reference .override := by
    rw [symbolsAt_of_referenceAt? hreference, hflush,
      SymbolStore.resolve_of_isMember _ _ (hkind ▸ rfl)]
  refine ⟨reference, {
    undisturbed := undisturbed_nameless
    settled := hsettled
    distinct := by decide +kernel
    asked := hreference
    targets := ?_
    visible := ?_
    missed := ?_ }⟩
  · obtain ⟨hierarchy, member, hmeant⟩ := exists_meant_nameless hkind hname hscope
    rw [htargets]
    exact hmeant.resolveMember_ne_nil .override
  · intro target htarget
    rw [htargets] at htarget
    exact (of_mem_resolveMember_nameless hkind htarget).2.1
  · intro found hfound
    obtain ⟨target, htarget, hordered⟩ := mem_of_mem_findReferences hfound
    rw [htargets] at htarget
    obtain ⟨hmethod, hvisible, hnowhere⟩ := of_mem_resolveMember_nameless hkind htarget
    have hlocal : isLocal target = false := by
      simp [isLocal, hmethod, hvisible, SymbolKind.isVariable]
    have huse := mem_of_mem_orderedUses hordered
    rw [hflush, usesOf_of_isMember nameless hlocal (hmethod ▸ rfl)] at huse
    obtain ⟨uri, hcandidate, -⟩ := ReferenceStore.mem_find_iff.1 huse
    rw [hnowhere] at hcandidate
    exact absurd hcandidate List.not_mem_nil

/-- Both are needed: that a member reference has a name, and that its document is known. -/
theorem findReferences_misses_query :
    (∃ reference, MissesQuery nameless "a" ⟨0, 24⟩ reference) ∧
      ∃ reference, MissesQuery leftover "b" ⟨0, 10⟩ reference :=
  ⟨missesQuery_nameless, missesQuery_leftover⟩

end Workspace

end SymbolIndex
