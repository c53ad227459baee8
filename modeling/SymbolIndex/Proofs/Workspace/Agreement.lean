import SymbolIndex.Proofs.Equality
import SymbolIndex.Proofs.ReferenceStore.Search
import SymbolIndex.Proofs.SymbolStore.Resolution
import SymbolIndex.Proofs.Workspace.Freshness
import SymbolIndex.Proofs.Workspace.Uses

/-!
# Agreement of the two directions

The search for the uses of a target goes by names, and so does the resolution of
a reference, but by other ways.  Variables and private members are looked for
where they resolve to the target, so the two agree.  For all others the search
takes two things for granted: that a reference with the name of the target is
not drawn away by a declaration of its own, and that of several classes of one
name the one that declares the member is the one that its name leads to.  Where
both hold, every use that is found resolves to a target.
-/

namespace SymbolIndex.Workspace

open SymbolIndex.Text

variable {σ : Type}

/-- The uses of such a target are looked for in its own document only. -/
def isLocal (target : Symbol) : Bool :=
  target.kind.isVariable || (target.kind.isMember && target.isPrivate)

/-- The first of the classes of the owner's name declares the member, which may be bound to another
type. -/
def OwnedByFirst (workspace : Workspace σ) (target : Symbol) : Prop :=
  ∃ hierarchy, workspace.symbols.hierarchy? (workspace.ownerName target) = some hierarchy ∧
    ∃ member ∈ hierarchy.root.symbol.children, target = { member with type := target.type }

/-! ## Members of classes in scope -/

/-- A scope that includes a class names it, or names one that inherits from the class that the
name leads to first. -/
theorem exists_hierarchy_of_scopeIncludes {workspace : Workspace σ} {scope owner : String}
    (hincludes : workspace.scopeIncludes scope owner = true) {first : Hierarchy}
    (hfirst : workspace.symbols.hierarchy? owner = some first) :
    ∃ name ∈ TypeExpr.classNames scope, ∃ hierarchy,
      workspace.symbols.hierarchy? name = some hierarchy ∧
        (first.root = hierarchy.root ∨ first.root ∈ hierarchy.associated) := by
  rw [scopeIncludes, List.any_eq_true] at hincludes
  obtain ⟨name, hname, hmatch⟩ := hincludes
  refine ⟨name, hname, ?_⟩
  rcases Bool.or_eq_true_iff.1 hmatch with hsame | hinherits
  · refine ⟨first, ?_, Or.inl rfl⟩
    rw [workspace.symbols.hierarchy?_congr hsame, hfirst]
  · obtain ⟨symbol, hsymbol, hbase⟩ := List.any_eq_true.1 hinherits
    rw [SymbolStore.associated] at hsymbol
    split at hsymbol
    · rename_i hierarchy hfound
      obtain ⟨base, hassociated, rfl⟩ := List.mem_map.1 hsymbol
      obtain ⟨-, hsubset⟩ := SymbolStore.classLike_subset_associated hfound hassociated
      rw [workspace.symbols.classLike_congr hbase] at hsubset
      exact ⟨hierarchy, hfound, Or.inr (hsubset (SymbolStore.root_mem_classLike hfirst))⟩
    · exact absurd hsymbol List.not_mem_nil

/-- A reference to a member through a class that has it in scope resolves to the member. -/
theorem resolves_of_isMember {workspace : Workspace σ} {target : Symbol} {reference : Reference}
    (hsound : workspace.symbols.Sound) (hmember : target.kind.isMember = true)
    (hvisible : target.isPrivate = false) (hkind : reference.kind = target.kind)
    (hincludes : workspace.scopeIncludes reference.scope (workspace.ownerName target) = true)
    (hname : target.nameEquals reference.name = true) (howned : workspace.OwnedByFirst target) :
    ∃ symbol ∈ workspace.symbols.resolve reference .every,
      symbol.location = target.location := by
  obtain ⟨first, hfirst, member, hchild, htarget⟩ := howned
  obtain ⟨declared, hdeclared, rfl⟩ := Declared.exists_mem_children hchild
  obtain ⟨name, hscope, hierarchy, hfound, hroot⟩ :=
    exists_hierarchy_of_scopeIncludes hincludes hfirst
  have hsame : declared.symbol.kind = target.kind ∧ declared.symbol.isPrivate = false ∧
      declared.symbol.nameEquals reference.name = true ∧
        declared.symbol.location = target.location := by
    rw [htarget] at hname hvisible
    exact ⟨(congrArg Symbol.kind htarget).symm, hvisible, hname,
      (congrArg Symbol.location htarget).symm⟩
  obtain ⟨hsameKind, hsameVisible, hsameName, hlocation⟩ := hsame
  have hseen : declared ∈ hierarchy.visibleMembers := by
    rw [Hierarchy.visibleMembers, List.mem_append]
    rcases hroot with hroot | hinherited
    · exact Or.inl (List.mem_filter.2 ⟨hroot ▸ hdeclared, by simp [hsameKind, hmember]⟩)
    · exact Or.inr (List.mem_flatMap.2 ⟨first.root, hinherited, List.mem_filter.2
        ⟨hdeclared, by simp [hsameKind, hmember, hsameVisible]⟩⟩)
  rw [workspace.symbols.resolve_of_isMember .every (hkind ▸ hmember), ← hlocation]
  exact hsound.exists_mem_resolveMember
    ⟨hscope, hfound, hseen, hsameKind.trans hkind.symm, hsameName⟩

section

variable [ByteStore σ] {workspace : Workspace σ} {target : Symbol} {reference : Reference}

/-! ## What is found for a target -/

theorem of_mem_findUses {name : String} {p : Reference → Bool}
    (hmem : reference ∈ workspace.findUses name p) :
    reference.isNamed name = true ∧ p reference = true := by
  obtain ⟨uri, -, table, -, huse⟩ := ReferenceStore.mem_find_iff.1 hmem
  exact Bool.and_eq_true_iff.1 (List.mem_filter.1 huse).2

/-- The targets of a query are what some reference resolves to. -/
theorem exists_resolve_of_mem_symbolsAt {uri : String} {position : Position}
    {policy : MemberPolicy}
    (htarget : target ∈ (workspace.symbolsAt uri position policy).1) :
    ∃ query, (workspace.referenceAt? uri position).1 = some query ∧
      target ∈ (workspace.flush uri).symbols.resolve query policy := by
  rw [symbolsAt] at htarget
  dsimp only at htarget
  split at htarget
  · rename_i query hquery
    exact ⟨query, hquery, htarget⟩
  · exact absurd htarget List.not_mem_nil

theorem usesOf_of_isLocal (workspace : Workspace σ) (hlocal : isLocal target = true) :
    workspace.usesOf target = workspace.usesInOwnDocument target :=
  if_pos hlocal

/-- Uses of a member are those whose class has the owner in scope. -/
theorem usesOf_of_isMember (workspace : Workspace σ) (hlocal : isLocal target = false)
    (hmember : target.kind.isMember = true) :
    workspace.usesOf target = workspace.findUses target.name fun reference =>
      reference.kind == target.kind &&
        workspace.scopeIncludes reference.scope (workspace.ownerName target) :=
  (if_neg (Bool.eq_false_iff.1 hlocal)).trans (if_pos hmember)

/-- Uses of a class are found by its name. -/
theorem usesOf_of_isClassLike (workspace : Workspace σ)
    (hclass : target.kind.isClassLike = true) :
    workspace.usesOf target =
      workspace.findUses target.name fun reference => reference.kind.isClassLike := by
  rw [usesOf]
  cases hkind : target.kind <;> simp_all [SymbolKind.isClassLike, SymbolKind.isVariable,
    SymbolKind.isMember]

/-- Uses of a global declaration are found by its name and kind. -/
theorem usesOf_of_isGlobal (workspace : Workspace σ)
    (hglobal : SymbolStore.isGlobal target.kind = true) :
    workspace.usesOf target =
      workspace.findUses target.name fun reference => reference.kind == target.kind := by
  rw [usesOf]
  cases hkind : target.kind <;> simp_all [SymbolStore.isGlobal, SymbolKind.isClassLike,
    SymbolKind.isVariable, SymbolKind.isMember]

/-- In its own document every use was tested to resolve. -/
theorem resolves_of_mem_usesInOwnDocument
    (hmem : reference ∈ workspace.usesInOwnDocument target) :
    ∃ symbol ∈ workspace.symbols.resolve reference .every,
      symbol.location = target.location := by
  rw [usesInOwnDocument] at hmem
  split at hmem
  · exact absurd hmem List.not_mem_nil
  · have hmatch := (List.mem_filter.1 hmem).2
    rw [Bool.and_eq_true, resolvesTo, List.any_eq_true] at hmatch
    obtain ⟨symbol, hsymbol, hlocation⟩ := hmatch.2
    exact ⟨symbol, hsymbol, beq_iff_eq.1 hlocation⟩

/-! ## What is found resolves -/

/-- A use of a target resolves to it, among all that it resolves to. -/
theorem resolves_of_mem_usesOf (hsound : workspace.symbols.Sound) {query : Reference}
    {policy : MemberPolicy} (htarget : target ∈ workspace.symbols.resolve query policy)
    (hmem : reference ∈ workspace.usesOf target)
    (hgoes : isLocal target = false → workspace.symbols.GoesBy reference target)
    (howned : isLocal target = false → target.kind.isMember = true →
      workspace.OwnedByFirst target) :
    ∃ symbol ∈ workspace.symbols.resolve reference .every,
      symbol.location = target.location := by
  cases hlocal : isLocal target with
  | true =>
      rw [usesOf_of_isLocal workspace hlocal] at hmem
      exact resolves_of_mem_usesInOwnDocument hmem
  | false =>
      obtain ⟨hvariable, hprivate⟩ := Bool.or_eq_false_iff.1 hlocal
      cases hmember : target.kind.isMember with
      | true =>
          have hvisible : target.isPrivate = false := by simpa [hmember] using hprivate
          have hname := (hgoes hlocal).nameEquals (Or.inl hmember)
          rw [usesOf_of_isMember workspace hlocal hmember] at hmem
          obtain ⟨-, hmatch⟩ := of_mem_findUses hmem
          rw [Bool.and_eq_true, beq_iff_eq] at hmatch
          exact resolves_of_isMember hsound hmember hvisible hmatch.1 hmatch.2 hname
            (howned hlocal hmember)
      | false =>
          obtain ⟨hdeclared, hindexable⟩ :=
            hsound.mem_allSymbols_of_mem_resolve htarget hvariable hmember
          refine ⟨target, ?_, rfl⟩
          rcases SymbolStore.isClassLike_or_isGlobal hvariable hmember hindexable with hkind | hkind
          · have hname := (hgoes hlocal).nameEquals (Or.inr hkind)
            rw [usesOf_of_isClassLike workspace hkind] at hmem
            exact hsound.mem_resolve_of_isClassLike hkind (of_mem_findUses hmem).2 hdeclared
              hindexable hname .every
          · rw [usesOf_of_isGlobal workspace hkind] at hmem
            obtain ⟨hnamed, hmatch⟩ := of_mem_findUses hmem
            exact hsound.mem_resolve_of_isGlobal hkind (beq_iff_eq.1 hmatch) hdeclared
              hindexable hnamed (hgoes hlocal) .every

/-- Where no reference with the name of a target is drawn away from it, and the class of a member
is the first of its name, every use that is found resolves to a target. -/
theorem findReferences_resolve (hreachable : workspace.Reachable) {uri : String}
    {position : Position}
    (hmem : reference ∈ (workspace.findReferences uri position true).1)
    (hgoes : ∀ target ∈ (workspace.symbolsAt uri position .override).1,
      reference ∈ (workspace.flush uri).usesOf target → isLocal target = false →
        (workspace.flush uri).symbols.GoesBy reference target)
    (howned : ∀ target ∈ (workspace.symbolsAt uri position .override).1,
      reference ∈ (workspace.flush uri).usesOf target → isLocal target = false →
        target.kind.isMember = true → (workspace.flush uri).OwnedByFirst target) :
    ∃ target ∈ (workspace.symbolsAt uri position .override).1,
      ∃ symbol ∈ (workspace.flush uri).symbols.resolve reference .every,
        symbol.location = target.location := by
  obtain ⟨target, htarget, hordered⟩ := mem_of_mem_findReferences hmem
  have huse := mem_of_mem_orderedUses hordered
  obtain ⟨query, -, hquery⟩ := exists_resolve_of_mem_symbolsAt htarget
  refine ⟨target, htarget, ?_⟩
  exact resolves_of_mem_usesOf (hreachable.sound.flush uri).symbols hquery huse
    (hgoes target htarget huse) (howned target htarget huse)

/-! ## Uses in fetched tables -/

/-- A use in a table that can be fetched is found, if the summary at hand is that of the table. -/
theorem mem_findUses_of_fetch? (hsound : workspace.references.Sound) {uri : String}
    {table : ReferenceTable} (hfetch : workspace.fetch? uri = some table)
    (hsummary : workspace.references.summary? uri = some table.summary) {name : String}
    (hname : name ≠ "") {p : Reference → Bool} (hkind : reference.kind.isVariable = false)
    (hmem : reference ∈ ReferenceStore.usesIn name p table) :
    reference ∈ workspace.findUses name p := by
  obtain ⟨hlisted, hmatch⟩ := List.mem_filter.1 hmem
  have hkey := ReferenceTable.lower_mem_summary hlisted hkind hname
    (Bool.and_eq_true_iff.1 hmatch).1
  exact ReferenceStore.mem_find_iff.2
    ⟨uri, ReferenceStore.mem_candidates hsound hsummary hkey, table, hfetch, hmem⟩

/-- Every use that is found stands in a table that can be fetched. -/
theorem exists_table_of_mem_usesOf (hmem : reference ∈ workspace.usesOf target) :
    ∃ uri table, workspace.fetch? uri = some table ∧ reference ∈ table.references := by
  have hfind : ∀ name p, reference ∈ workspace.findUses name p →
      ∃ uri table, workspace.fetch? uri = some table ∧ reference ∈ table.references := by
    intro name p hfound
    obtain ⟨uri, -, table, hfetch, huse⟩ := ReferenceStore.mem_find_iff.1 hfound
    exact ⟨uri, table, hfetch, (List.mem_filter.1 huse).1⟩
  rw [usesOf] at hmem
  dsimp only at hmem
  split at hmem
  · rw [usesInOwnDocument] at hmem
    split at hmem
    · exact absurd hmem List.not_mem_nil
    · rename_i table hfetched
      obtain ⟨location, -, hfetch⟩ := Option.bind_eq_some_iff.1 hfetched
      exact ⟨location.uri, table, hfetch, (List.mem_filter.1 hmem).1⟩
  · split at hmem
    · exact hfind _ _ hmem
    · split at hmem
      · exact hfind _ _ hmem
      · exact hfind _ _ hmem

end

/-! ### Workspaces that put nothing away -/

section

variable {workspace : Workspace MemoryCache} {uri : String}

theorem fetch?_of_empty (hcache : workspace.cache = MemoryCache.empty) (uri : String) :
    workspace.fetch? uri = workspace.references.get? uri := by
  have hnone : (ByteStore.readReferences MemoryCache.empty uri).toOption.join = none := rfl
  rw [fetch?, ReferenceStore.fetch?, hcache, hnone, Option.or_none]

/-- With a use of a target there is one at its place in the answer, which is in an open table
too. -/
theorem exists_found_of_empty (hcache : workspace.cache = MemoryCache.empty)
    (hsettled : uri ∉ workspace.pendingUris) {position : Position} {target : Symbol}
    (htarget : target ∈ (workspace.symbolsAt uri position .override).1) {use : Reference}
    (huse : use ∈ workspace.usesOf target) :
    ∃ found ∈ (workspace.findReferences uri position true).1, use.samePlace found = true ∧
      ∃ table ∈ workspace.references.opened, found ∈ table.references := by
  have hflush := flush_of_not_pending hsettled
  have hordered : use ∈ orderedUses ((workspace.flush uri).usesOf target) target true := by
    rw [hflush]
    exact List.mem_mergeSort.2 huse
  obtain ⟨found, hfound, hplace⟩ := exists_mem_findReferences htarget hordered
  refine ⟨found, hfound, hplace, ?_⟩
  obtain ⟨other, -, hother⟩ := mem_of_mem_findReferences hfound
  rw [hflush] at hother
  obtain ⟨name, table, hfetch, hmem⟩ := exists_table_of_mem_usesOf (mem_of_mem_orderedUses hother)
  rw [fetch?_of_empty hcache] at hfetch
  exact ⟨table, List.mem_of_find?_eq_some hfetch, hmem⟩

/-- So it is with a reference in an open table that goes by the name of a global target. -/
theorem exists_found_of_isGlobal (hreachable : workspace.Reachable)
    (hcache : workspace.cache = MemoryCache.empty) (hsettled : uri ∉ workspace.pendingUris)
    {position : Position} {target : Symbol}
    (htarget : target ∈ (workspace.symbolsAt uri position .override).1)
    (hglobal : SymbolStore.isGlobal target.kind = true) (hname : target.name ≠ "")
    {other : String} {table : ReferenceTable}
    (hget : workspace.references.get? other = some table)
    (hsummary : workspace.references.summary? other = some table.summary) {use : Reference}
    (huse : use ∈ ReferenceStore.usesIn target.name
      (fun reference => reference.kind == target.kind) table)
    (hkind : use.kind.isVariable = false) :
    ∃ found ∈ (workspace.findReferences uri position true).1, use.samePlace found = true ∧
      ∃ table ∈ workspace.references.opened, found ∈ table.references := by
  apply exists_found_of_empty hcache hsettled htarget
  rw [usesOf_of_isGlobal workspace hglobal]
  refine mem_findUses_of_fetch? hreachable.sound.references ?_ hsummary hname hkind huse
  rw [fetch?_of_empty hcache, hget]

end

/-! ### A global function that is called in a namespace -/

def globalFunctionDocument : Document :=
  Snippet.document "a" "<?php function f() {}" [Snippet.function "f" [] none []]

def fallbackDocument : Document :=
  Snippet.document "b" "<?php namespace N; f();"
    [Snippet.namespaceDefinition "N", Snippet.expressionStatement (Snippet.call "f" [])]

def shadowingDocument : Document :=
  Snippet.document "b" "<?php namespace N; function f() {} f();"
    [Snippet.namespaceDefinition "N", Snippet.function "f" [] none [],
      Snippet.expressionStatement (Snippet.call "f" [])]

/-- The call means the global function, since the namespace has none of its own. -/
def fallback : Workspace MemoryCache :=
  ((new {} MemoryCache.empty).openDocument globalFunctionDocument).openDocument fallbackDocument

/-- The call means the function of the namespace. -/
def shadowed : Workspace MemoryCache :=
  ((new {} MemoryCache.empty).openDocument globalFunctionDocument).openDocument shadowingDocument

theorem reachable_fallback : fallback.Reachable :=
  ((Reachable.new {} MemoryCache.empty).openDocument globalFunctionDocument).openDocument
    fallbackDocument

theorem reachable_shadowed : shadowed.Reachable :=
  ((Reachable.new {} MemoryCache.empty).openDocument globalFunctionDocument).openDocument
    shadowingDocument

/-- The call is found, and it resolves to the global function. -/
theorem findReferences_resolve_fallback :
    ∃ reference ∈ (fallback.findReferences "b" ⟨0, 19⟩ true).1, reference.location.uri = "b" ∧
      ∃ target ∈ (fallback.symbolsAt "b" ⟨0, 19⟩ .override).1,
        ∃ symbol ∈ (fallback.flush "b").symbols.resolve reference .every,
          symbol.location = target.location := by
  have hsettled : "b" ∉ fallback.pendingUris := by decide +kernel
  have hflush := flush_of_not_pending hsettled
  have hkinds : ∀ target ∈ (fallback.symbolsAt "b" ⟨0, 19⟩ .override).1,
      target.kind.isMember = false := by
    decide +kernel
  obtain ⟨target, htarget, hkind, hname, table, -, hget, hsummary, use, huse, hglobal, hgoes⟩ :
      ∃ target ∈ (fallback.symbolsAt "b" ⟨0, 19⟩ .override).1,
        SymbolStore.isGlobal target.kind = true ∧ target.name ≠ "" ∧
        ∃ table ∈ fallback.references.opened, fallback.references.get? "b" = some table ∧
          fallback.references.summary? "b" = some table.summary ∧
          ∃ use ∈ ReferenceStore.usesIn target.name
              (fun reference => reference.kind == target.kind) table,
            use.kind.isVariable = false ∧
            ∀ other ∈ fallback.references.opened, ∀ found ∈ other.references,
              use.samePlace found = true → found.location.uri = "b" ∧
                ∀ target ∈ (fallback.symbolsAt "b" ⟨0, 19⟩ .override).1,
                  fallback.symbols.GoesBy found target := by
    decide +kernel
  obtain ⟨found, hfound, hplace, other, hother, hmem⟩ :=
    exists_found_of_isGlobal reachable_fallback rfl hsettled htarget hkind hname hget hsummary huse
      hglobal
  obtain ⟨huri, hgoesBy⟩ := hgoes other hother found hmem hplace
  refine ⟨found, hfound, huri, findReferences_resolve reachable_fallback hfound ?_ ?_⟩
  · intro target htarget _ _
    rw [hflush]
    exact hgoesBy target htarget
  · intro target htarget _ _ hmember
    rw [hkinds target htarget] at hmember
    cases hmember

/-- The search from a global function reports the call of another one, which has its name in a
namespace. -/
theorem findReferences_reports_shadowed_use :
    shadowed.Reachable ∧ ∃ reference ∈ (shadowed.findReferences "a" ⟨0, 15⟩ true).1,
      ∀ target ∈ (shadowed.symbolsAt "a" ⟨0, 15⟩ .override).1,
        ∀ symbol ∈ (shadowed.flush "a").symbols.resolve reference .every,
          symbol.location ≠ target.location := by
  have hsettled : "a" ∉ shadowed.pendingUris := by decide +kernel
  obtain ⟨target, htarget, hkind, hname, table, -, hget, hsummary, use, huse, hglobal, hother⟩ :
      ∃ target ∈ (shadowed.symbolsAt "a" ⟨0, 15⟩ .override).1,
        SymbolStore.isGlobal target.kind = true ∧ target.name ≠ "" ∧
        ∃ table ∈ shadowed.references.opened, shadowed.references.get? "b" = some table ∧
          shadowed.references.summary? "b" = some table.summary ∧
          ∃ use ∈ ReferenceStore.usesIn target.name
              (fun reference => reference.kind == target.kind) table,
            use.kind.isVariable = false ∧
            ∀ other ∈ shadowed.references.opened, ∀ found ∈ other.references,
              use.samePlace found = true →
                ∀ target ∈ (shadowed.symbolsAt "a" ⟨0, 15⟩ .override).1,
                  ∀ symbol ∈ shadowed.symbols.resolve found .every,
                    symbol.location ≠ target.location := by
    decide +kernel
  obtain ⟨found, hfound, hplace, table', htable', hmem⟩ :=
    exists_found_of_isGlobal reachable_shadowed rfl hsettled htarget hkind hname hget hsummary huse
      hglobal
  refine ⟨reachable_shadowed, found, hfound, ?_⟩
  rw [flush_of_not_pending hsettled]
  exact hother table' htable' found hmem hplace

end SymbolIndex.Workspace
