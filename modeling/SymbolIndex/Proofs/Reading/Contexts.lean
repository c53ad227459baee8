import SymbolIndex.Proofs.Reading.Locations
import SymbolIndex.Proofs.Reading.Marks
import SymbolIndex.Tree.Snippet

/-!
# The context of a declaration

Namespaces and imports set the context in which names are resolved.  The walk over
declarations keeps it in its state; the table gives it back for a position, from
the marks that start before it.  At the start of a declaration both are the same,
as the marks stand at the root in the order of the text.  The end of a namespace
in braces is not marked, so nothing but further ones may follow it.
-/

namespace SymbolIndex

namespace Reading

open SymbolIndex.Tree

variable {doc : Document}

/-! ## Documents whose contexts can be rebuilt -/

/-- Declarations of scopes and of constants. -/
def readsContext : PhraseKind → Bool
  | .constDeclaration | .classConstDeclaration => true
  | kind => declaresScope kind

def hasBlock (tree : Tree) : Bool :=
  tree.parts.any isBlock

mutual

/-- Outside of namespaces in braces nothing sets or reads the context. -/
def onlyBlocks : Tree → Bool
  | .token _ => true
  | .phrase kind children =>
    isBlock (.phrase kind children) ||
      !setsContext kind && !readsContext kind && onlyBlocksAll children

def onlyBlocksAll : List Tree → Bool
  | [] => true
  | tree :: rest => onlyBlocks tree && onlyBlocksAll rest

end

mutual

/-- Nothing but further ones comes after the end of a namespace in braces. -/
def blocksLast : Tree → Bool
  | .token _ => true
  | .phrase _ children => blocksLastAll children

def blocksLastAll : List Tree → Bool
  | [] => true
  | tree :: rest =>
    blocksLast tree && (!hasBlock tree || onlyBlocksAll rest) && blocksLastAll rest

end

structure ContextsInPlace (doc : Document) : Prop where
  laid : SourceText.LaidOut doc.text doc.tree.tokens
  /-- Namespaces and imports are not nested in declarations. -/
  apart : ∀ part ∈ doc.tree.parts, part.phraseKind?.any declaresScope = true →
    ∀ inner ∈ part.parts, inner.phraseKind?.any setsContext = false
  blocks : blocksLast doc.tree = true
  solid : ∀ mark ∈ doc.tree.parts, mark.phraseKind?.any isMarked = true → mark.solidTokens ≠ []
  /-- No phrase sets a variable behind a namespace or an import inside of it. -/
  targets : ∀ part ∈ doc.tree.parts, ∀ target ∈ targetTokens part, ∀ mark ∈ part.parts,
    mark.phraseKind?.any isMarked = true →
    (doc.tokenRange target).start ≤ (doc.treeRange mark).start

/-! ### Namespaces in braces -/

theorem onlyBlocksAll_append (left right : List Tree) :
    onlyBlocksAll (left ++ right) = (onlyBlocksAll left && onlyBlocksAll right) := by
  induction left with
  | nil => rfl
  | cons tree rest ih => rw [List.cons_append, onlyBlocksAll, onlyBlocksAll, ih, Bool.and_assoc]

theorem onlyBlocks_eq_false {kind : PhraseKind} {children : List Tree}
    (hreads : readsContext kind = true) : onlyBlocks (.phrase kind children) = false := by
  have hblock : isBlock (.phrase kind children) = false := by
    cases kind
    case namespaceDefinition => cases hreads
    all_goals rfl
  rw [onlyBlocks, hblock, hreads, Bool.not_true, Bool.and_false, Bool.false_and, Bool.or_false]

/-- What stands behind a tree with a namespace in braces has only such. -/
theorem onlyBlocks_of_blocksLastAll {earlier later : List Tree} {tree child : Tree}
    (hlast : blocksLastAll (earlier ++ child :: later) = true) (htree : tree ∈ earlier)
    (hblock : hasBlock tree = true) : onlyBlocks child = true := by
  induction earlier with
  | nil => exact absurd htree List.not_mem_nil
  | cons first rest ih =>
      rw [List.cons_append, blocksLastAll, Bool.and_eq_true, Bool.and_eq_true] at hlast
      obtain ⟨⟨-, hbehind⟩, hrest⟩ := hlast
      rcases List.mem_cons.1 htree with rfl | hlater
      · rw [hblock, Bool.not_true, Bool.false_or, onlyBlocksAll_append, Bool.and_eq_true,
          onlyBlocksAll, Bool.and_eq_true] at hbehind
        exact hbehind.2.1
      · exact ih hrest hlater

/-- Where namespaces in braces come last among trees, they do in each of them. -/
theorem blocksLast_of_blocksLastAll {earlier later : List Tree} {child : Tree}
    (hlast : blocksLastAll (earlier ++ child :: later) = true) : blocksLast child = true := by
  induction earlier with
  | nil =>
      rw [List.nil_append, blocksLastAll, Bool.and_eq_true, Bool.and_eq_true] at hlast
      exact hlast.1.1
  | cons first rest ih =>
      rw [List.cons_append, blocksLastAll, Bool.and_eq_true] at hlast
      exact ih hlast.2

/-! ## From mark to mark -/

section

variable {kind : PhraseKind} {children : List Tree}

/-- Clauses give imports in the order in which they stand. -/
theorem marksInOrder_filterMap {list : Tree} {clauseKind : PhraseKind}
    {importOf : Tree → Option Symbol} (hlaid : SourceText.LaidOut doc.text list.tokens)
    (hsolid : ∀ clause ∈ list.children, clause.isPhrase clauseKind = true →
      clause.solidTokens ≠ [])
    (hlocation : ∀ clause symbol, importOf clause = some symbol →
      symbol.location = locationOf doc clause) :
    MarksInOrder ((list.children.filter (·.isPhrase clauseKind)).filterMap importOf) := by
  cases list with
  | token leaf => exact List.Pairwise.nil
  | phrase kind children =>
      have hstarts := SourceText.LaidOut.pairwise_start hlaid
      have hclauses := (hstarts.filter (·.isPhrase clauseKind)).imp_of_mem
        (S := fun earlier later => (doc.treeRange earlier).start ≤ (doc.treeRange later).start) (by
          intro earlier later _ hlater hordered
          obtain ⟨hchild, hkind⟩ := List.mem_filter.1 hlater
          exact hordered (hsolid later hchild hkind))
      refine hclauses.filterMap importOf ?_
      intro earlier later hordered first hfirst second hsecond _ position hstarts
      have hbehind := (Symbol.startsBy_iff (hlocation later second hsecond)).1 hstarts
      exact (Symbol.startsBy_iff (hlocation earlier first hfirst)).2
        (le_trans hordered hbehind)

namespace ContextsInPlace

variable (hplaced : ContextsInPlace doc)
include hplaced

/-- The imports of a use declaration are marks in the order of the text. -/
theorem marksInOrder_importsOf {tree : Tree} (htree : tree ∈ doc.tree.parts) :
    MarksInOrder (importsOf doc tree) := by
  have hlocation : ∀ {kind : SymbolKind} {leading : String} {clause : Tree} {symbol : Symbol},
      importOf? doc kind leading clause = some symbol →
      symbol.location = locationOf doc clause := by
    intro kind leading clause symbol himport
    obtain ⟨written, -, rfl⟩ := Option.map_eq_some_iff.1 himport
    rfl
  have hlist : ∀ {listKind : PhraseKind} {list : Tree}, tree.childPhrase? listKind = some list →
      list ∈ doc.tree.parts := by
    intro listKind list hchild
    exact doc.tree.mem_parts_trans htree
      (mem_parts_of_mem_children (mem_children_of_childPhrase? hchild).1)
  have hsolid : ∀ {list : Tree} {clauseKind : PhraseKind}, list ∈ doc.tree.parts →
      isMarked clauseKind = true → ∀ clause ∈ list.children, clause.isPhrase clauseKind = true →
      clause.solidTokens ≠ [] := by
    intro list clauseKind hpart hmarked clause hclause hkind
    have hbelow := doc.tree.mem_parts_trans hpart (mem_parts_of_mem_children hclause)
    refine hplaced.solid clause hbelow ?_
    rw [beq_iff_eq.1 hkind]
    exact hmarked
  rw [importsOf]
  dsimp only
  split
  · rename_i list hchild
    exact marksInOrder_filterMap (hplaced.laid.part (hlist hchild)) (hsolid (hlist hchild) rfl)
      fun _ _ => hlocation
  · split
    · rename_i list hchild
      exact marksInOrder_filterMap (hplaced.laid.part (hlist hchild)) (hsolid (hlist hchild) rfl)
        fun _ _ => hlocation
    · exact List.Pairwise.nil

/-- The marks that a phrase brings stand in the order of the text. -/
theorem marksInOrder_broughtBy (hsets : setsContext kind = true)
    (hpart : .phrase kind children ∈ doc.tree.parts) (state : DeclarationState) :
    MarksInOrder (broughtBy doc state kind (.phrase kind children)) := by
  cases kind
  case namespaceDefinition => exact List.pairwise_singleton _ _
  case namespaceUseDeclaration => exact hplaced.marksInOrder_importsOf hpart
  all_goals cases hsets

variable {part : Tree} {before : DeclarationState}

section

variable (hvisits : (declarationWalk doc).Visits doc.tree (DeclarationState.start doc) part before)
include hvisits

/-- Where the context is set, no declaration is open. -/
theorem opened_of_visits (hsets : part.phraseKind?.any setsContext = true) :
    before.opened = [] := by
  obtain ⟨layers, htree, -, rfl⟩ := Walk.exists_layers_of_visits hvisits
  refine opened_arrive fun layer hlayer => ?_
  rw [← Bool.not_eq_true]
  intro hdeclares
  obtain ⟨outer, inner, hsplit⟩ := List.append_of_mem hlayer
  have hpart := wrap_mem_parts htree (⟨outer, hsplit.symm⟩ : layer :: inner <:+ layers)
  have hnone := hplaced.apart _ hpart hdeclares part (self_mem_parts_wrap _ _)
  rw [hsets] at hnone
  cases hnone

/-- All that is at the root starts before the marks that come next. -/
theorem startsBy_of_visits {mark : Tree} (hmark : mark ∈ part.parts)
    (hkind : mark.phraseKind?.any isMarked = true) {position : Position}
    (hle : (doc.treeRange mark).start ≤ position) :
    ∀ symbol ∈ before.root.children, symbol.startsBy position = true := by
  intro symbol hmem
  have hpart := doc.tree.mem_parts_trans hvisits.mem_parts hmark
  obtain ⟨leaf, hleaf, hstart⟩ :=
    SourceText.exists_treeRange_start doc.text (hplaced.solid mark hpart hkind)
  have hsame : (doc.tokenRange leaf).start = (doc.treeRange mark).start := hstart.symm
  obtain ⟨htoken, hsolid⟩ := tokens_of_mem_solidTokens hleaf
  have hbelow := (tokens_sublist_of_mem_parts part hmark).subset htoken
  obtain ⟨layers, htree, hdescends, rfl⟩ := Walk.exists_layers_of_visits hvisits
  have hlaid := hplaced.laid
  rw [htree] at hlaid
  have hlasting : Lasting fun symbol => symbol.startsBy (doc.tokenRange leaf).start = true :=
    lasting_of_same fun _ _ _ hstarts => hstarts
  have harrived := (DeclarationState.All.start _ doc).arrive hlasting (by
    intro layer inner before hinner symbol hbrought
    have hlayer := hdescends layer (hinner.subset List.mem_cons_self)
    rcases startsBy_of_around hlaid hbelow hsolid hinner hlayer hbrought with
      hstarts | ⟨target, htarget, hlocation⟩
    · exact hstarts
    · have hinside := mem_parts_trans _ (self_mem_parts_wrap (layer :: inner) part) hmark
      rw [Symbol.startsBy_iff hlocation, hsame]
      exact hplaced.targets _ (wrap_mem_parts htree hinner) target htarget mark hinside hkind)
    fun kind children before hphrase symbol hbrought =>
      startsBy_of_earlier hlaid hbelow hphrase hbrought
  exact Symbol.startsBy_mono (hsame ▸ hle) (harrived.root_children symbol hmem)

end

/-- New marks come behind the old ones. -/
theorem orderly_enter_of_setsContext (hsets : setsContext kind = true)
    (hvisits : (declarationWalk doc).Visits doc.tree (DeclarationState.start doc)
      (.phrase kind children) before)
    (hbefore : Orderly before) :
    Orderly (enterDeclaration doc kind (.phrase kind children) before) := by
  obtain ⟨hopened, hroot, -⟩ :=
    @enter_of_setsContext doc before kind (.phrase kind children) hsets
      (hplaced.opened_of_visits hvisits hsets)
  have hbrought := hplaced.marksInOrder_broughtBy hsets hvisits.mem_parts before
  constructor
  · rw [hopened]
    exact fun _ hmem => absurd hmem List.not_mem_nil
  · rw [hroot]
    refine List.pairwise_append.2 ⟨hbefore.marks, hbrought, ?_⟩
    intro earlier hearlier later hlater hmark position hstarts
    obtain ⟨mark, hpart, hkind, hlocation⟩ := exists_marked_of_mem_broughtBy hlater hmark
    exact hplaced.startsBy_of_visits hvisits hpart hkind
      ((Symbol.startsBy_iff hlocation).1 hstarts) earlier hearlier

theorem keepsAt_orderly :
    (declarationWalk doc).KeepsAt Orderly doc.tree (DeclarationState.start doc) where
  token leaf before _ hbefore := hbefore.of_all (all_token hbefore.opened leaf)
  enter kind children before hvisits hbefore := by
    cases hsets : setsContext kind with
    | false => exact hbefore.of_all (all_enter hbefore.opened hsets _)
    | true => exact hplaced.orderly_enter_of_setsContext hsets hvisits hbefore
  leave kind children before _ hbefore := hbefore.of_all (all_leave hbefore.opened kind _)

/-! ### Where the marks give the context -/

/-- With its marks a phrase gives the context that the walk has then. -/
theorem rebuilds_enter_of_setsContext (hsets : setsContext kind = true)
    (hvisits : (declarationWalk doc).Visits doc.tree (DeclarationState.start doc)
      (.phrase kind children) before)
    (hbefore : kind = .namespaceDefinition ∨ Rebuilds before) :
    Rebuilds (enterDeclaration doc kind (.phrase kind children) before) := by
  obtain ⟨hopened, hroot, hcontext⟩ :=
    @enter_of_setsContext doc before kind (.phrase kind children) hsets
      (hplaced.opened_of_visits hvisits hsets)
  constructor
  · rw [hopened]
    exact fun _ hmem => absurd hmem List.not_mem_nil
  · rw [hroot, hcontext, List.foldl_append]
    rcases hbefore with rfl | hbefore
    · rfl
    · rw [hbefore.context]

/-- Trees without namespaces in braces keep it. -/
theorem rebuilds_run {tree : Tree} {state : DeclarationState}
    (hvisits : (declarationWalk doc).Visits doc.tree (DeclarationState.start doc) tree state)
    (hnone : hasBlock tree = false) (hstate : Rebuilds state) :
    Rebuilds ((declarationWalk doc).run tree state) := by
  refine Walk.KeepsAt.run tree state ⟨?_, ?_, ?_⟩ hstate
  · exact fun leaf before _ hbefore =>
      hbefore.of_all (all_token hbefore.opened leaf) (context_declarationToken leaf before)
  · intro kind children before hbelow hbefore
    cases hsets : setsContext kind with
    | false =>
        exact hbefore.of_all (all_enter hbefore.opened hsets _) (context_enterDeclaration hsets)
    | true =>
        exact hplaced.rebuilds_enter_of_setsContext hsets (hvisits.trans hbelow) (Or.inr hbefore)
  · intro kind children before hpart hbefore
    have hplain : isBlock (.phrase kind children) = false := by
      rw [hasBlock, List.any_eq_false] at hnone
      exact Bool.eq_false_iff.2 (hnone _ hpart)
    exact hbefore.of_all (all_leave hbefore.opened kind _) (context_leaveDeclaration hplain)

/-- Where a phrase is entered, the marks give the context, or all in it is in namespaces in
braces. -/
theorem rebuilds_enter {state : DeclarationState}
    (hvisits : (declarationWalk doc).Visits doc.tree (DeclarationState.start doc)
      (.phrase kind children) state)
    (hdescends : descendsForDeclarations kind = true)
    (hstate : Rebuilds state ∨ onlyBlocks (.phrase kind children) = true) :
    Rebuilds (enterDeclaration doc kind (.phrase kind children) state) ∨
      onlyBlocksAll children = true := by
  by_cases hspace : kind = .namespaceDefinition
  · refine Or.inl (hplaced.rebuilds_enter_of_setsContext ?_ hvisits (Or.inl hspace))
    rw [hspace]
    rfl
  · rcases hstate with hstate | honly
    · have hsets : setsContext kind = false := by
        cases kind
        case namespaceDefinition => exact absurd rfl hspace
        case namespaceUseDeclaration => cases hdescends
        all_goals rfl
      exact Or.inl (hstate.of_all (all_enter hstate.opened hsets _)
        (context_enterDeclaration hsets))
    · have hblock : isBlock (.phrase kind children) = false := by
        rw [isBlock, isPhrase, phraseKind?, Option.some_beq_some, beq_eq_false_iff_ne.2 hspace,
          Bool.false_and]
      rw [onlyBlocks, hblock, Bool.false_or, Bool.and_eq_true] at honly
      exact Or.inr honly.2

/-- So it is where the walk comes to a child. -/
theorem rebuilds_child {earlier later : List Tree} {child : Tree} {state : DeclarationState}
    (hvisits : (declarationWalk doc).Visits doc.tree (DeclarationState.start doc)
      (.phrase kind (earlier ++ child :: later)) state)
    (hdescends : descendsForDeclarations kind = true)
    (hlast : blocksLastAll (earlier ++ child :: later) = true)
    (hstate : Rebuilds state ∨ onlyBlocks (.phrase kind (earlier ++ child :: later)) = true) :
    Rebuilds ((declarationWalk doc).runAll earlier
        (enterDeclaration doc kind (.phrase kind (earlier ++ child :: later)) state)) ∨
      onlyBlocks child = true := by
  rcases hplaced.rebuilds_enter hvisits hdescends hstate with hentered | honly
  · by_cases hblocks : ∃ tree ∈ earlier, hasBlock tree = true
    · obtain ⟨tree, htree, hblock⟩ := hblocks
      exact Or.inr (onlyBlocks_of_blocksLastAll hlast htree hblock)
    · refine Or.inl (Walk.runAll_of_splits hentered fun front tree back hsplit hfront => ?_)
      have hnone : hasBlock tree = false := by
        rw [← Bool.not_eq_true]
        exact fun hblock => hblocks
          ⟨tree, hsplit ▸ List.mem_append_right _ List.mem_cons_self, hblock⟩
      refine hplaced.rebuilds_run ?_ hnone hfront
      subst hsplit
      rw [List.append_assoc, List.cons_append] at hvisits ⊢
      exact hvisits.trans (Walk.Visits.inside hdescends (Walk.Visits.here _ _))
  · rw [onlyBlocksAll_append, onlyBlocksAll, Bool.and_eq_true, Bool.and_eq_true] at honly
    exact Or.inr honly.2.1

/-- The marks give the context wherever it is read: behind a namespace in braces, that is only
inside of a further one. -/
theorem rebuilds_of_visits {tree : Tree} {state : DeclarationState}
    (hinner : (declarationWalk doc).Visits tree state part before)
    (houter : (declarationWalk doc).Visits doc.tree (DeclarationState.start doc) tree state)
    (hreads : part.phraseKind?.any readsContext = true) (hlast : blocksLast tree = true)
    (hstate : Rebuilds state ∨ onlyBlocks tree = true) : Rebuilds before := by
  induction hinner with
  | here tree state =>
      rcases hstate with hstate | honly
      · exact hstate
      · cases tree with
        | token leaf => cases hreads
        | phrase kind children =>
            rw [onlyBlocks_eq_false hreads] at honly
            cases honly
  | inside hdescends _ ih =>
      refine ih (houter.trans (Walk.Visits.inside hdescends (Walk.Visits.here _ _))) hreads
        (blocksLast_of_blocksLastAll hlast) ?_
      exact hplaced.rebuilds_child houter hdescends hlast hstate

/-! ### What the table holds in the end -/

section

variable (hvisits : (declarationWalk doc).Visits doc.tree (DeclarationState.start doc)
    (.phrase kind children) before)
include hvisits

variable {leaf : Token} (hleaf : leaf ∈ (Tree.phrase kind children).solidTokens)
include hleaf

/-- All marks before a place start before it. -/
theorem startsBy_of_isMark : ∀ symbol ∈ before.root.children, symbol.isMark = true →
    symbol.startsBy (doc.tokenRange leaf).start = true := by
  obtain ⟨htoken, hsolid⟩ := tokens_of_mem_solidTokens hleaf
  obtain ⟨layers, htree, hdescends, rfl⟩ := Walk.exists_layers_of_visits hvisits
  have hlaid := hplaced.laid
  rw [htree] at hlaid
  have hlasting : Lasting fun symbol => symbol.isMark = true →
      symbol.startsBy (doc.tokenRange leaf).start = true :=
    lasting_of_same fun _ _ _ hstarts => hstarts
  have harrived := (DeclarationState.All.start _ doc).arrive hlasting (by
    intro layer inner before hinner symbol hbrought hmark
    have hlayer := hdescends layer (hinner.subset List.mem_cons_self)
    rcases startsBy_of_around hlaid htoken hsolid hinner hlayer hbrought with
      hstarts | ⟨target, htarget, -⟩
    · exact hstarts
    · -- What sets variables brings no marks.
      cases hsets : setsContext layer.kind with
      | false =>
          rw [isMark_of_mem_broughtBy hsets symbol hbrought] at hmark
          cases hmark
      | true =>
          rw [wrap, targetTokens_of_setsContext hsets] at htarget
          exact absurd htarget List.not_mem_nil)
    fun kind children before hphrase symbol hbrought _ =>
      startsBy_of_earlier hlaid htoken hphrase hbrought
  exact harrived.root_children

variable (hreads : readsContext kind = true)
include hreads

omit hleaf in
/-- In a declaration nothing sets the context. -/
theorem setsContext_of_visits {inner : PhraseKind} {trees : List Tree} {state : DeclarationState}
    (hinner : (declarationWalk doc).Visits (.phrase kind children) before (.phrase inner trees)
      state) : setsContext inner = false := by
  cases hdeclares : declaresScope kind with
  | true => exact hplaced.apart _ hvisits.mem_parts hdeclares _ hinner.mem_parts
  | false =>
      cases kind
      case constDeclaration | classConstDeclaration =>
        cases hinner with
        | here => rfl
        | inside hdescends => cases hdescends
      all_goals
        rw [readsContext] at hreads
        · rw [hdeclares] at hreads
          cases hreads
        · exact nofun
        · exact nofun

/-- The walk goes on to add marks, but only such as start behind the place. -/
theorem exists_root_children : ∃ added,
    (SymbolTable.ofDocument doc).root.children = before.root.children ++ added ∧
      ∀ symbol ∈ added, symbol.isMark = true →
        symbol.startsBy (doc.tokenRange leaf).start = false := by
  have hopened := (Walk.KeepsAt.visits hvisits hplaced.keepsAt_orderly orderly_start).opened
  have hlasting : Lasting fun symbol => symbol.isMark = true →
      symbol.startsBy (doc.tokenRange leaf).start = false :=
    lasting_of_same fun _ _ _ hbehind => hbehind
  have hplain : ∀ {symbol : Symbol}, symbol.isMark = false → symbol.isMark = true →
      symbol.startsBy (doc.tokenRange leaf).start = false := by
    intro symbol hplain hmark
    rw [hplain] at hmark
    cases hmark
  have hpart : ((declarationWalk doc).run (.phrase kind children) before).All before.root.children
      fun symbol => symbol.isMark = true →
        symbol.startsBy (doc.tokenRange leaf).start = false := by
    have hstart := @DeclarationState.All.refl _ before fun symbol hmem =>
      hplain (hopened symbol hmem)
    refine hstart.run hlasting ?_
    intro inner trees state hinner symbol hbrought
    have hsets := hplaced.setsContext_of_visits hvisits hreads hinner
    exact hplain (isMark_of_mem_broughtBy hsets symbol hbrought)
  obtain ⟨layers, htree, hdescends, rfl⟩ := Walk.exists_layers_of_visits hvisits
  have hlaid := hplaced.laid
  rw [htree] at hlaid
  have hrun := DeclarationState.All.run_wrap hlasting hdescends hpart (by
    intro inner trees state hphrase symbol hbrought hmark
    obtain ⟨mark, hmarkPart, hkind, hlocation⟩ := exists_marked_of_mem_broughtBy hbrought hmark
    have hlater := mem_partsAll_trans _ hphrase hmarkPart
    have hsolid := hplaced.solid mark (htree ▸ mem_parts_wrap_of_later hlater) hkind
    rw [← Bool.not_eq_true, Symbol.startsBy_iff hlocation]
    exact not_le.2
      (hlaid.lt_treeRange_start (tokens_of_mem_solidTokens hleaf).1 hlater hsolid))
  rw [← htree] at hrun
  exact (hrun.closeSymbols hlasting).root

end

end ContextsInPlace

end

end Reading

open Reading in
/-- At the start of each declaration that is read, the table gives the namespace
and the imports in which its names were resolved. -/
theorem SymbolTable.contextAt_start_of_readsContext {doc : Document}
    (hplaced : ContextsInPlace doc) {part : Tree} {before : DeclarationState}
    (hvisits : (declarationWalk doc).Visits doc.tree (DeclarationState.start doc) part before)
    (hreads : part.phraseKind?.any readsContext = true) (hsolid : part.solidTokens ≠ []) :
    (ofDocument doc).contextAt (doc.treeRange part).start =
      ⟨before.resolver.namespaceName, before.resolver.imports⟩ := by
  obtain ⟨leaf, hleaf, hstart⟩ := SourceText.exists_treeRange_start doc.text hsolid
  have hsame : (doc.treeRange part).start = (doc.tokenRange leaf).start := hstart
  have hrebuilds := hplaced.rebuilds_of_visits hvisits (Walk.Visits.here _ _) hreads
    hplaced.blocks (Or.inl rebuilds_start)
  have horderly := Walk.KeepsAt.visits hvisits hplaced.keepsAt_orderly orderly_start
  have hlocated : ∀ symbol ∈ (ofDocument doc).root.children, symbol.location.isSome = true := by
    intro symbol hmem
    obtain ⟨range, hlocation⟩ := exists_location_of_mem_symbols
      (Symbol.mem_preorderAll_iff.2 ⟨symbol, hmem, Symbol.mem_preorder_iff.2 (Or.inl rfl)⟩)
    rw [hlocation]
    rfl
  cases part with
  | token _ => cases hreads
  | phrase kind children =>
      obtain ⟨added, hroot, hadded⟩ := hplaced.exists_root_children hvisits hleaf hreads
      rw [hsame, contextAt_eq hroot hlocated horderly.marks
        (hplaced.startsBy_of_isMark hvisits hleaf) hadded]
      exact hrebuilds.context

/-- Two namespaces in braces, each with an import. -/
def blocksDocument : Document :=
  Snippet.document "a"
    "<?php namespace A \x7b use B; \x7d namespace C \x7b use D; class E \x7b\x7d \x7d"
    [Snippet.namespaceBlock "A" [Snippet.useDeclaration ["B"]],
      Snippet.namespaceBlock "C"
        [Snippet.useDeclaration ["D"], Snippet.classDeclaration [] "E" none [] []]]

open Reading in
/-- In the second namespace the import of the first one is gone. -/
theorem SymbolTable.contextAt_start_of_readsContext_blocks :
    ContextsInPlace blocksDocument ∧ ∃ part before,
      (declarationWalk blocksDocument).Visits blocksDocument.tree
        (DeclarationState.start blocksDocument) part before ∧
      part.phraseKind? = some .classDeclaration ∧ part.solidTokens ≠ [] ∧
      before.resolver.namespaceName = "C" ∧ before.resolver.imports.map (·.name) = ["D"] ∧
      (ofDocument blocksDocument).contextAt (blocksDocument.treeRange part).start =
        ⟨before.resolver.namespaceName, before.resolver.imports⟩ := by
  have hplaced : ContextsInPlace blocksDocument :=
    ⟨by decide +kernel, by decide +kernel, by decide +kernel, by decide +kernel,
      by decide +kernel⟩
  have hfound : ∃ visit ∈ (declarationWalk blocksDocument).visited blocksDocument.tree
      (DeclarationState.start blocksDocument), visit.1.phraseKind? = some .classDeclaration ∧
      visit.1.solidTokens ≠ [] ∧ visit.2.resolver.namespaceName = "C" ∧
      visit.2.resolver.imports.map (·.name) = ["D"] := by
    decide +kernel
  obtain ⟨⟨part, before⟩, hmem, hkind, hsolid, hname, himports⟩ := hfound
  have hvisits := Walk.visits_of_mem_visited _ hmem
  have hreads : part.phraseKind?.any readsContext = true := by
    rw [hkind]
    rfl
  exact ⟨hplaced, part, before, hvisits, hkind, hsolid, hname, himports,
    contextAt_start_of_readsContext hplaced hvisits hreads hsolid⟩

/-- An import and a function, and then a namespace without tokens. -/
def hollowDocument : Document :=
  ⟨"a", "use A; function f() \x7b\x7d", .phrase .sourceFile
    [.phrase .namespaceUseDeclaration
      [.token ⟨.useKeyword, 0, 3⟩,
        .phrase .namespaceUseClauseList
          [.phrase .namespaceUseClause [.phrase .namespaceName [.token ⟨.plainName, 4, 1⟩]]],
        .token ⟨.semicolon, 5, 1⟩],
      .phrase .functionDeclaration
        [.phrase .functionDeclarationHeader
          [.token ⟨.functionKeyword, 7, 8⟩, .token ⟨.plainName, 16, 1⟩]],
      .phrase .namespaceDefinition []]⟩

/-- An import and a function in front of the variable that the phrase around them sets. -/
def lateTargetDocument : Document :=
  ⟨"a", "use A; function f() \x7b\x7d $x", .phrase .sourceFile
    [.phrase .simpleAssignmentExpression
      [.phrase .arrayCreationExpression
        [.phrase .namespaceUseDeclaration
          [.token ⟨.useKeyword, 0, 3⟩,
            .phrase .namespaceUseClauseList
              [.phrase .namespaceUseClause [.phrase .namespaceName [.token ⟨.plainName, 4, 1⟩]]],
            .token ⟨.semicolon, 5, 1⟩],
          .phrase .functionDeclaration
            [.phrase .functionDeclarationHeader
              [.token ⟨.functionKeyword, 7, 8⟩, .token ⟨.plainName, 16, 1⟩]],
          .phrase .arrayInitialiserList
            [.phrase .arrayElement
              [.phrase .arrayValue [.phrase .simpleVariable [.token ⟨.variableName, 23, 2⟩]]]]]]]⟩

open Reading in
/-- The walk comes to a function with an import that the table does not give there. -/
structure ImportLost (doc : Document) : Prop where
  laid : SourceText.LaidOut doc.text doc.tree.tokens
  apart : ∀ part ∈ doc.tree.parts, part.phraseKind?.any declaresScope = true →
    ∀ inner ∈ part.parts, inner.phraseKind?.any setsContext = false
  unbraced : ∀ part ∈ doc.tree.parts, isBlock part = false
  function : ∃ part before,
    (declarationWalk doc).Visits doc.tree (DeclarationState.start doc) part before ∧
    part.phraseKind? = some .functionDeclaration ∧ part.solidTokens ≠ [] ∧
    before.resolver.imports.map (·.name) = ["A"] ∧
    ((SymbolTable.ofDocument doc).contextAt (doc.treeRange part).start).imports = []

open Reading in
/-- A namespace without tokens counts everywhere, and a variable that is brought
before the import, but starts behind it, hides it. -/
theorem SymbolTable.contextAt_start_without_import :
    ImportLost hollowDocument ∧ ImportLost lateTargetDocument := by
  have hfound : ∀ doc ∈ [hollowDocument, lateTargetDocument],
      SourceText.LaidOut doc.text doc.tree.tokens ∧
      (∀ part ∈ doc.tree.parts, part.phraseKind?.any declaresScope = true →
        ∀ inner ∈ part.parts, inner.phraseKind?.any setsContext = false) ∧
      (∀ part ∈ doc.tree.parts, isBlock part = false) ∧
      ∃ visit ∈ (declarationWalk doc).visited doc.tree (DeclarationState.start doc),
        visit.1.phraseKind? = some .functionDeclaration ∧ visit.1.solidTokens ≠ [] ∧
        visit.2.resolver.imports.map (·.name) = ["A"] ∧
        ((ofDocument doc).contextAt (doc.treeRange visit.1).start).imports = [] := by
    decide +kernel
  have hlost : ∀ doc ∈ [hollowDocument, lateTargetDocument], ImportLost doc := by
    intro doc hdoc
    obtain ⟨hlaid, hapart, hunbraced, ⟨part, before⟩, hmem, hfunction⟩ := hfound doc hdoc
    exact ⟨hlaid, hapart, hunbraced, part, before, Walk.visits_of_mem_visited _ hmem, hfunction⟩
  exact ⟨hlost _ List.mem_cons_self, hlost _ (List.mem_cons_of_mem _ List.mem_cons_self)⟩

end SymbolIndex
