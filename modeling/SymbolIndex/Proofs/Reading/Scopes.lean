import SymbolIndex.Proofs.Reading.Edits
import SymbolIndex.Proofs.Reading.Walk
import SymbolIndex.Proofs.Reference.Snug
import SymbolIndex.Reading.Declarations
import SymbolIndex.Tree.Snippet

/-!
# References lie in their scopes

The walk over uses opens a scope for a declaration or a braced namespace, and
emits references where it enters and where it leaves phrases.  When the tokens
stand one after the other and the phrases that give a scope or a reference its
range are not empty, the scope that is open holds all tokens that the walk comes
to.  So it holds the references too, also those of members, which are emitted
when the phrase around the name of the member is left.
-/

namespace SymbolIndex

namespace Reading

variable {doc : Document}

/-- The tokens stand one after the other, and no range of a scope or a reference
is that of an empty phrase. -/
structure Placed (doc : Document) (tree : Tree) : Prop where
  laid : SourceText.LaidOut doc.text tree.tokens
  solid : ∀ part ∈ tree.parts, part.givesRange = true → part.solidTokens ≠ []

theorem Placed.part {tree part : Tree} (hplaced : Placed doc tree) (hpart : part ∈ tree.parts) :
    Placed doc part where
  laid := hplaced.laid.part hpart
  solid inner hinner := hplaced.solid inner (tree.mem_parts_trans hpart hinner)

/-- The range holds the tokens, blanks and comments aside. -/
def Spans (doc : Document) (range : Range) (tokens : List Token) : Prop :=
  ∀ leaf ∈ tokens, leaf.kind.isTrivia = false → range.containsRange (doc.tokenRange leaf) = true

theorem Spans.part {range : Range} {tree part : Tree} (hspans : Spans doc range tree.tokens)
    (hpart : part ∈ tree.parts) : Spans doc range part.tokens := fun leaf hleaf =>
  hspans leaf ((Tree.tokens_sublist_of_mem_parts tree hpart).subset hleaf)

theorem Placed.spans_treeRange {tree : Tree} (hplaced : Placed doc tree) :
    Spans doc (doc.treeRange tree) tree.tokens := fun _ hleaf hsolid =>
  hplaced.laid.containsRange_treeRange (Tree.mem_solidTokens hleaf hsolid)

/-- What holds the tokens of a tree holds the range of each part that gives one. -/
theorem Placed.containsRange {tree part : Tree} {range : Range} (hplaced : Placed doc tree)
    (hspans : Spans doc range tree.tokens) (hpart : part ∈ tree.parts)
    (hgives : part.givesRange = true) : range.containsRange (doc.treeRange part) = true := by
  apply SourceText.containsRange_of_tokens (hplaced.solid part hpart hgives)
  intro leaf hleaf
  obtain ⟨hmem, hkind⟩ := List.mem_filter.1 hleaf
  exact hspans.part hpart leaf hmem (Bool.not_eq_true' _ ▸ hkind)

/-! ## States that fit -/

/-- The part will give a member reference its range only if that range fits. -/
def Part.Fits (range : Range) (part : Part) : Prop :=
  part.phrase = some .memberName ∨ part.phrase = some .scopedMemberName →
    range.containsRange part.range = true

/-- Some parts that fit have been handed to the innermost frame. -/
inductive FramesFit (range : Range) : List Frame → List Frame → Prop
  | none : FramesFit range [] []
  | more {kind : PhraseKind} {parts handed : List Part} {rest : List Frame}
      (hhanded : ∀ part ∈ handed, part.Fits range) :
      FramesFit range (⟨kind, parts⟩ :: rest) (⟨kind, parts ++ handed⟩ :: rest)

theorem FramesFit.refl (range : Range) (frames : List Frame) : FramesFit range frames frames := by
  cases frames with
  | nil => exact FramesFit.none
  | cons frame rest =>
      obtain ⟨kind, parts⟩ := frame
      have hsame := @FramesFit.more range kind parts [] rest fun _ hmem =>
        absurd hmem List.not_mem_nil
      rwa [List.append_nil] at hsame

/-- What has been handed in two steps fits. -/
theorem FramesFit.trans {range : Range} {before middle after : List Frame}
    (hleft : FramesFit range before middle) (hright : FramesFit range middle after) :
    FramesFit range before after := by
  cases hleft with
  | none => exact hright
  | more hfirst =>
      cases hright with
      | more hsecond =>
          rw [List.append_assoc]
          exact FramesFit.more (List.forall_mem_append.2 ⟨hfirst, hsecond⟩)

namespace UseState

/-- Between the states before and after a part of the tree: the scope that is
open is the same and has stayed snug, and what has been handed to the innermost
frame fits it. -/
structure FitsAfter (before after : UseState) : Prop where
  location : after.scope.location = before.scope.location
  outer : after.outer = before.outer
  snug : before.scope.isSnug = true → after.scope.isSnug = true
  frames : FramesFit before.scope.location.range before.frames after.frames

variable {state : UseState}

/-- The range of the innermost scope. -/
def range (state : UseState) : Range :=
  state.scope.location.range

/-- Only scopes and frames matter. -/
theorem fitsAfter_of_same {other : UseState} (hscope : other.scope = state.scope)
    (houter : other.outer = state.outer) (hframes : other.frames = state.frames) :
    state.FitsAfter other where
  location := congrArg Scope.location hscope
  outer := houter
  snug hsnug := by rwa [hscope]
  frames := by
    rw [hframes]
    exact FramesFit.refl _ _

theorem FitsAfter.refl (state : UseState) : state.FitsAfter state :=
  fitsAfter_of_same rfl rfl rfl

theorem FitsAfter.trans {middle after : UseState} (hleft : state.FitsAfter middle)
    (hright : middle.FitsAfter after) : state.FitsAfter after where
  location := hright.location.trans hleft.location
  outer := hright.outer.trans hleft.outer
  snug hsnug := hright.snug (hleft.snug hsnug)
  frames := hleft.frames.trans (hleft.location ▸ hright.frames)

theorem FitsAfter.range_eq {after : UseState} (hfits : state.FitsAfter after) :
    after.range = state.range :=
  congrArg Location.range hfits.location

theorem fitsAfter_pushPart {part : Part} (hpart : part.Fits state.range) :
    state.FitsAfter (state.pushPart part) := by
  rw [pushPart]
  split
  · exact FitsAfter.refl state
  · rename_i frame rest hframes
    refine ⟨rfl, rfl, id, ?_⟩
    rw [hframes]
    exact FramesFit.more (List.forall_mem_singleton.2 hpart)

theorem fitsAfter_emit {reference : Reference}
    (hreference : state.range.containsRange reference.range = true) :
    state.FitsAfter (state.emit reference) where
  location := rfl
  outer := rfl
  snug hsnug := by
    rw [Scope.isSnug_iff] at hsnug ⊢
    exact List.forall_mem_append.2 ⟨hsnug, List.forall_mem_singleton.2 hreference⟩
  frames := FramesFit.refl _ _

/-- A type that is given later leaves a reference at its place. -/
theorem isSnug_of_mem_modify {range : Range} (type : String) {children : List ScopeChild}
    (hsnug : ∀ child ∈ children, child.isSnug range = true) (place : Nat) :
    ∀ child ∈ children.modify place (withType type), child.isSnug range = true := by
  induction children generalizing place with
  | nil =>
      rw [List.modify_nil]
      exact hsnug
  | cons child rest ih =>
      obtain ⟨hfirst, hrest⟩ := List.forall_mem_cons.1 hsnug
      cases place with
      | zero =>
          rw [List.modify_zero_cons]
          refine List.forall_mem_cons.2 ⟨?_, hrest⟩
          cases child with
          | scope inner => exact hfirst
          | reference reference => exact hfirst
      | succ place =>
          rw [List.modify_succ_cons]
          exact List.forall_mem_cons.2 ⟨hfirst, ih hrest place⟩

theorem fitsAfter_patchType (place : Option Nat) (type : String) :
    state.FitsAfter (state.patchType place type) := by
  cases place with
  | none => exact FitsAfter.refl state
  | some place =>
      refine ⟨rfl, rfl, fun hsnug => ?_, FramesFit.refl _ _⟩
      rw [Scope.isSnug_iff] at hsnug ⊢
      exact isSnug_of_mem_modify type hsnug place

/-- Edits that emit and hand on only what fits. -/
theorem Edits.fitsAfter {allowed : Allowed} {parts : List Part} {after : UseState}
    (hedits : state.Edits allowed parts after)
    (hemits : ∀ reference, allowed.emits reference →
      state.range.containsRange reference.range = true)
    (hhands : ∀ part, allowed.hands part → part.Fits state.range) : state.FitsAfter after := by
  induction hedits with
  | refl => exact FitsAfter.refl state
  | emit _ hreference ih =>
      exact ih.trans (fitsAfter_emit (ih.range_eq ▸ hemits _ hreference))
  | pushPart _ hpart ih => exact ih.trans (fitsAfter_pushPart (ih.range_eq ▸ hhands _ hpart))
  | patchType _ _ _ ih => exact ih.trans (fitsAfter_patchType _ _)
  -- The others leave scopes and frames as they are.
  | setVariable _ _ _ ih | setLevels _ _ _ ih | setPending _ _ ih | setResolver _ _ ih =>
      exact ih.trans (fitsAfter_of_same rfl rfl rfl)

end UseState

/-! ## Tokens -/

theorem fits_of_phrase {range : Range} {part : Part} (hmember : part.phrase ≠ some .memberName)
    (hscoped : part.phrase ≠ some .scopedMemberName) : part.Fits range := by
  rintro (heq | heq)
  · exact absurd heq hmember
  · exact absurd heq hscoped

/-- A token that the scope holds keeps it snug. -/
theorem fitsAfter_useToken {table : SymbolTable} {state : UseState} {leaf : Token}
    (hspans : Spans doc state.range [leaf]) :
    state.FitsAfter (useToken doc table leaf state) := by
  refine (edits_useToken leaf state).fitsAfter (fun reference hemitted => ?_) fun part hpart => ?_
  · rw [Reference.range, hemitted.location]
    exact hspans leaf List.mem_cons_self hemitted.solid
  · have hnone : part.phrase = none := hpart
    apply fits_of_phrase
    all_goals
      rw [hnone]
      exact nofun

/-! ## Phrases -/

section

variable {table : SymbolTable} {source : SymbolSource} {state : UseState} {tree : Tree}

theorem containsRange_self (hplaced : Placed doc tree)
    (hspans : Spans doc state.range tree.tokens) (hgives : tree.givesRange = true) :
    state.range.containsRange (doc.treeRange tree) = true :=
  hplaced.containsRange hspans tree.self_mem_parts hgives

/-! ### Scopes of phrases -/

/-- A scope that has stayed snug is closed into one that has room for it. -/
theorem fitsAfter_closeScope {opened inside after : UseState}
    (hopened : Opened doc tree state opened)
    (hlocation : inside.scope.location = opened.scope.location)
    (houter : inside.outer = opened.outer)
    (hsnug : opened.scope.isSnug = true → inside.scope.isSnug = true)
    (hrange : state.range.containsRange (doc.treeRange tree) = true)
    (hscope : after.scope = inside.closeScope.scope)
    (hafter : after.outer = inside.closeScope.outer)
    (hframes : after.frames = state.frames) : state.FitsAfter after := by
  have hclosed : inside.closeScope =
      { inside with
        scope := { state.scope with children := state.scope.children ++ [.scope inside.scope] }
        outer := state.outer } := by
    rw [UseState.closeScope, houter, hopened.outer]
  rw [hclosed] at hscope hafter
  refine ⟨?_, hafter, fun hstate => ?_, ?_⟩
  · rw [hscope]
  · rw [hscope]
    rw [Scope.isSnug_iff] at hstate ⊢
    refine List.forall_mem_append.2 ⟨hstate, List.forall_mem_singleton.2 ?_⟩
    have hinside : inside.scope.isSnug = true := hsnug (by rw [hopened.scope]; rfl)
    rw [ScopeChild.isSnug, hlocation, hopened.scope, hinside, Bool.and_true]
    exact hrange
  · rw [hframes]
    exact FramesFit.refl _ _

theorem givesRange_of_opensScope (hopens : opensScope tree = true) : tree.givesRange = true := by
  cases tree with
  | token leaf => cases hopens
  | phrase kind children =>
      cases kind
      case namespaceDefinition => exact hopens
      all_goals
        first
        | rfl
        | cases hopens

/-! ### Entering -/

variable {kind : PhraseKind} {children : List Tree}

/-- What entering a phrase emits lies inside the scope that holds the phrase. -/
theorem fitsAfter_of_entering {before after : UseState} {parts : List Part}
    (hplaced : Placed doc (.phrase kind children))
    (hspans : Spans doc before.range (Tree.phrase kind children).tokens)
    (hedits : before.Edits (.entering doc kind (.phrase kind children)) parts after) :
    before.FitsAfter after := by
  refine hedits.fitsAfter (fun reference hemitted => ?_) fun part hpart hmember => ?_
  · rw [Reference.range]
    cases hemitted with
    | self hgives _ hlocation =>
        rw [hlocation]
        exact containsRange_self hplaced hspans hgives
    | part part hpart hgives _ hlocation =>
        rw [hlocation]
        exact hplaced.containsRange hspans hpart hgives
    | leaf leaf _ hleaf hlocation =>
        obtain ⟨hchild, hkind⟩ := Tree.mem_children_of_childToken? hleaf
        rw [hlocation]
        exact hspans leaf (Tree.mem_tokens_of_mem_children hchild) (by rw [hkind]; rfl)
  · obtain ⟨hgives, hrange⟩ := hpart hmember
    rw [hrange]
    exact containsRange_self hplaced hspans hgives

theorem fitsAfter_enterPlain (hplaced : Placed doc (.phrase kind children))
    (hspans : Spans doc state.range (Tree.phrase kind children).tokens)
    (hplain : opensScope (.phrase kind children) = false) :
    state.FitsAfter (enterPlain doc table source kind (.phrase kind children) state) := by
  obtain ⟨parts, hedits⟩ :=
    @exists_edits_enterPlain doc table source kind (.phrase kind children) hplain state
  exact fitsAfter_of_entering hplaced hspans hedits

/-- The mention of a namespace lies in the scope that it opens. -/
theorem exists_opened_fitsAfter (hplaced : Placed doc (.phrase kind children))
    (hopens : opensScope (.phrase kind children) = true) :
    ∃ opened, Opened doc (.phrase kind children) state opened ∧
      opened.FitsAfter (enterPlain doc table source kind (.phrase kind children) state) := by
  obtain ⟨opened, hopened, hedits⟩ :=
    @exists_opened doc table source kind (.phrase kind children) hopens state
  refine ⟨opened, hopened, fitsAfter_of_entering hplaced ?_ hedits⟩
  rw [UseState.range, hopened.scope]
  exact hplaced.spans_treeRange

/-- Where a phrase is entered and gone below, no part is handed on. -/
theorem frames_enterPlain (hdescends : descendsForUses kind = true) :
    (enterPlain doc table source kind tree state).frames = state.frames := by
  cases kind
  case namespaceDefinition =>
    rw [enterPlain, namespaceUse]
    split
    · split
      · rfl
      · rfl
    · split
      · rfl
      · rfl
  all_goals
    first
    | rfl
    | cases hdescends

/-! ### Leaving -/

/-- What leaving a phrase emits lies inside the scope that holds the phrase. -/
theorem fitsAfter_valueOf {frame : Frame} (hplaced : Placed doc (.phrase frame.kind children))
    (hspans : Spans doc state.range (Tree.phrase frame.kind children).tokens)
    (hplain : opensScope (.phrase frame.kind children) = false)
    (hparts : ∀ part ∈ frame.parts, part.Fits state.range) :
    state.FitsAfter (valueOf doc source (.phrase frame.kind children) frame state).1 := by
  have hedits : state.Edits (.leaving doc (.phrase frame.kind children) frame) []
      (valueOf doc source (.phrase frame.kind children) frame state).1 := edits_valueOf hplain
  refine hedits.fitsAfter (fun reference hemitted => ?_) fun _ hnone => False.elim hnone
  rw [Reference.range]
  cases hemitted with
  | self hgives _ hlocation =>
      rw [hlocation]
      exact containsRange_self hplaced hspans hgives
  | member part hpart hmember _ hlocation =>
      rw [hlocation]
      exact hparts part hpart hmember

theorem frames_closeScope (state : UseState) : state.closeScope.frames = state.frames := by
  rw [UseState.closeScope]
  split
  · rfl
  · rfl

/-- From entering a phrase to leaving it. -/
theorem fitsAfter_value {inside : UseState} {handed : List Part}
    (hplaced : Placed doc (.phrase kind children))
    (hspans : Spans doc state.range (Tree.phrase kind children).tokens)
    (hdescends : descendsForUses kind = true)
    (hinside : (enterUse doc table source kind (.phrase kind children) state).FitsAfter inside)
    (hhanded : ∀ part ∈ handed,
      part.Fits (enterUse doc table source kind (.phrase kind children) state).range) :
    state.FitsAfter (valueOf doc source (.phrase kind children) ⟨kind, handed⟩
      { inside with frames := state.frames }).1 := by
  have hentered : enterUse doc table source kind (.phrase kind children) state =
      { enterPlain doc table source kind (.phrase kind children) state with
        frames := { kind := kind } :: state.frames } := by
    rw [enterUse, if_pos hdescends, frames_enterPlain hdescends]
  rw [hentered] at hinside hhanded
  cases hopens : opensScope (.phrase kind children) with
  | true =>
      obtain ⟨opened, hopened, hfits⟩ :=
        @exists_opened_fitsAfter doc table source state kind children hplaced hopens
      obtain ⟨hscope, houter, hframes⟩ :=
        @closes_valueOf doc source (.phrase kind children) ⟨kind, handed⟩
          { inside with frames := state.frames } hopens
      have hrange := containsRange_self hplaced hspans (givesRange_of_opensScope hopens)
      refine @fitsAfter_closeScope doc state (.phrase kind children) opened
        { inside with frames := state.frames } _ hopened (hinside.location.trans hfits.location)
        (hinside.outer.trans hfits.outer) (fun hsnug => hinside.snug (hfits.snug hsnug)) hrange
        hscope houter ?_
      rw [hframes, frames_closeScope]
  | false =>
      have hfits := @fitsAfter_enterPlain doc table source state kind children hplaced hspans hopens
      have hpopped : state.FitsAfter { inside with frames := state.frames } :=
        ⟨hinside.location.trans hfits.location, hinside.outer.trans hfits.outer,
          fun hsnug => hinside.snug (hfits.snug hsnug), FramesFit.refl _ _⟩
      have hrange : UseState.range { inside with frames := state.frames } = state.range :=
        hpopped.range_eq
      refine hpopped.trans (fitsAfter_valueOf hplaced ?_ hopens ?_)
      · rw [hrange]
        exact hspans
      · intro part hpart
        rw [hrange]
        have hsame := hfits.range_eq
        rw [← hsame]
        exact hhanded part hpart

/-- A phrase that the scope holds keeps it snug, whether it opened a scope or not. -/
theorem fitsAfter_leaveUse {inside : UseState} (hplaced : Placed doc (.phrase kind children))
    (hspans : Spans doc state.range (Tree.phrase kind children).tokens)
    (hdescends : descendsForUses kind = true)
    (hinside : (enterUse doc table source kind (.phrase kind children) state).FitsAfter inside) :
    state.FitsAfter (leaveUse doc source (.phrase kind children) inside) := by
  have hframes := hinside.frames
  have hentered : (enterUse doc table source kind (.phrase kind children) state).frames =
      ⟨kind, []⟩ :: state.frames := by
    rw [enterUse, if_pos hdescends, frames_enterPlain hdescends]
  rw [hentered] at hframes
  generalize hlast : inside.frames = frames at hframes
  cases hframes with
  | more hhanded =>
      have hvalue := fitsAfter_value hplaced hspans hdescends hinside hhanded
      rw [leaveUse, hlast]
      rw [List.nil_append] at *
      dsimp only
      split
      · rename_i left hresult
        rwa [hresult] at hvalue
      · rename_i left part hresult
        rw [hresult] at hvalue
        refine hvalue.trans (UseState.fitsAfter_pushPart (fits_of_phrase ?_ ?_))
        · intro heq
          rw [Option.some.inj heq] at hdescends
          cases hdescends
        · intro heq
          rw [Option.some.inj heq] at hdescends
          cases hdescends

end

/-! ## The walk -/

/-- Between the states before and after a tree that the scope around holds. -/
def Held (doc : Document) (tree : Tree) (before after : UseState) : Prop :=
  Placed doc tree → Spans doc before.range tree.tokens → before.FitsAfter after

def HeldAll (doc : Document) (trees : List Tree) (before after : UseState) : Prop :=
  (∀ tree ∈ trees, Placed doc tree) → Spans doc before.range (Tree.tokensAll trees) →
    before.FitsAfter after

/-- The scope that is open below a phrase holds the phrase. -/
theorem spans_entered {table : SymbolTable} {source : SymbolSource} {state : UseState}
    {kind : PhraseKind} {children : List Tree} (hplaced : Placed doc (.phrase kind children))
    (hspans : Spans doc state.range (Tree.phrase kind children).tokens) :
    Spans doc (enterUse doc table source kind (.phrase kind children) state).range
      (Tree.phrase kind children).tokens := by
  have hsame : (enterUse doc table source kind (.phrase kind children) state).range =
      (enterPlain doc table source kind (.phrase kind children) state).range := by
    rw [enterUse]
    split
    · rfl
    · rfl
  rw [hsame]
  cases hopens : opensScope (.phrase kind children) with
  | true =>
      obtain ⟨opened, hopened, hfits⟩ :=
        @exists_opened_fitsAfter doc table source state kind children hplaced hopens
      have hrange : opened.range = doc.treeRange (.phrase kind children) := by
        rw [UseState.range, hopened.scope]
        rfl
      rw [hfits.range_eq, hrange]
      exact hplaced.spans_treeRange
  | false =>
      rw [(fitsAfter_enterPlain hplaced hspans hopens).range_eq]
      exact hspans

/-- Going through a tree that the scope holds keeps the scope snug. -/
theorem useWalk_relates_held (doc : Document) (table : SymbolTable) (source : SymbolSource) :
    (useWalk doc table source).Relates (Held doc) (HeldAll doc) where
  token leaf state _ hspans := fitsAfter_useToken hspans
  passed kind children state hpasses hplaced hspans := by
    have hentered : (useWalk doc table source).enter kind (.phrase kind children) state =
        enterPlain doc table source kind (.phrase kind children) state :=
      if_neg (Bool.eq_false_iff.1 hpasses)
    have hplain : opensScope (.phrase kind children) = false := by
      cases kind
      all_goals
        first
        | rfl
        | cases hpasses
    rw [hentered]
    exact fitsAfter_enterPlain hplaced hspans hplain
  phrase kind children state inside hdescends hchildren hplaced hspans := by
    have hparts : ∀ child ∈ children, Placed doc child := fun child hchild =>
      hplaced.part (Tree.mem_parts_of_mem_children hchild)
    exact fitsAfter_leaveUse hplaced hspans hdescends
      (hchildren hparts (spans_entered hplaced hspans))
  nil state _ _ := UseState.FitsAfter.refl state
  cons tree rest state next last htree hrest hplaced hspans := by
    obtain ⟨hfirst, hlater⟩ := List.forall_mem_cons.1 hplaced
    rw [Tree.tokensAll] at hspans
    have hnext := htree hfirst fun leaf hleaf => hspans leaf (List.mem_append_left _ hleaf)
    refine hnext.trans (hrest hlater ?_)
    rw [hnext.range_eq]
    exact fun leaf hleaf => hspans leaf (List.mem_append_right _ hleaf)

end Reading

/-- When the tokens of a document stand one after the other, and no phrase that
gives a scope or a reference its range is empty, every scope holds its inner
scopes and its references, and at every position of a reference some reference
is found. -/
theorem ReferenceTable.isSnug_and_exists_referenceAt? (doc : Document) (table : SymbolTable)
    (source : SymbolSource) (hlaid : SourceText.LaidOut doc.text doc.tree.tokens)
    (hsolid : ∀ part ∈ doc.tree.parts, part.givesRange = true → part.solidTokens ≠ []) :
    (ofDocument doc table source).root.isSnug = true ∧
      ∀ reference ∈ (ofDocument doc table source).references, ∀ position,
        reference.range.contains position = true →
        ∃ found, (ofDocument doc table source).referenceAt? position = some found ∧
          found.range.contains position = true := by
  have hspans : Reading.Spans doc (Reading.UseState.start doc).range doc.tree.tokens :=
    fun leaf hleaf _ => hlaid.containsRange_whole hleaf
  have hfits := (Reading.useWalk_relates_held doc table source).run doc.tree
    (Reading.UseState.start doc) ⟨hlaid, hsolid⟩ hspans
  have hclosed : ((Reading.useWalk doc table source).run doc.tree
      (Reading.UseState.start doc)).closeScopes =
        (Reading.useWalk doc table source).run doc.tree (Reading.UseState.start doc) := by
    rw [Reading.UseState.closeScopes, hfits.outer]
    rfl
  have hsnug : (ofDocument doc table source).root.isSnug = true := by
    rw [ofDocument]
    dsimp only [new]
    rw [hclosed]
    exact hfits.snug rfl
  exact ⟨hsnug, fun reference hmem position hcontains =>
    Scope.exists_referenceAt? hsnug hmem hcontains⟩

/-- A method called on a parameter, inside a class of a namespace with braces. -/
def callDocument : Document :=
  Snippet.document "a"
    "<?php namespace N \x7b class A \x7b function f($a) \x7b $a->g(A::h()); \x7d \x7d \x7d"
    [Snippet.namespaceBlock "N"
      [Snippet.classDeclaration [] "A" none []
        [Snippet.method [] "f" ["$a"] none
          [Snippet.expressionStatement
            (Snippet.methodCall (Snippet.variableUse "$a") "g"
              [Snippet.staticCall "A" "h" []])]]]]

/-- The mention of the namespace, then the declarations and uses inside. -/
theorem ReferenceTable.isSnug_and_exists_referenceAt?_of_call :
    let table := ReferenceTable.ofDocument callDocument (SymbolTable.ofDocument callDocument)
      .unknown
    SourceText.LaidOut callDocument.text callDocument.tree.tokens ∧
    (∀ part ∈ callDocument.tree.parts, part.givesRange = true → part.solidTokens ≠ []) ∧
    table.references.map (·.name) = ["N", "N\\A", "f", "$a", "$a", "N\\A", "h", "g"] ∧
    table.root.isSnug = true ∧
    ∀ reference ∈ table.references, ∀ position, reference.range.contains position = true →
      ∃ found, table.referenceAt? position = some found ∧
        found.range.contains position = true := by
  have hlaid : SourceText.LaidOut callDocument.text callDocument.tree.tokens := by
    decide +kernel
  have hsolid : ∀ part ∈ callDocument.tree.parts,
      part.givesRange = true → part.solidTokens ≠ [] := by
    decide +kernel
  obtain ⟨hsnug, hfound⟩ := isSnug_and_exists_referenceAt? callDocument
    (SymbolTable.ofDocument callDocument) .unknown hlaid hsolid
  exact ⟨hlaid, hsolid, by decide +kernel, hsnug, hfound⟩

end SymbolIndex
