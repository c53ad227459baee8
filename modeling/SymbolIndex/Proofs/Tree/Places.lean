import Mathlib.Data.List.Pairwise
import SymbolIndex.Proofs.Tree.Parts

/-!
# Places in a tree

A place in a tree is given by the phrases around it, each with what stands before
and after the place in it.  All other parts of the tree stand before or after the
place as a whole.  So when the tokens stand one after the other, the range of
such a part contains the start of a token at the place only as its end.
-/

namespace SymbolIndex

/-- A phrase around a place. -/
structure Layer where
  kind : PhraseKind
  earlier : List Tree
  later : List Tree

namespace Tree

/-- A tree inside of phrases, the outermost of which comes first. -/
def wrap : List Layer → Tree → Tree
  | [], tree => tree
  | layer :: rest, tree => phrase layer.kind (layer.earlier ++ wrap rest tree :: layer.later)

/-- What stands before the place in the phrases around it. -/
def earlierIn (layers : List Layer) : List Tree :=
  layers.flatMap (·.earlier)

/-- What stands behind the place in the phrases around it. -/
def laterIn : List Layer → List Tree
  | [] => []
  | layer :: rest => laterIn rest ++ layer.later

variable {layers : List Layer} {tree part : Tree}

theorem wrap_append (outer inner : List Layer) (tree : Tree) :
    wrap (outer ++ inner) tree = wrap outer (wrap inner tree) := by
  induction outer with
  | nil => rfl
  | cons layer rest ih => rw [List.cons_append, wrap, wrap, ih]

theorem self_mem_parts_wrap (layers : List Layer) (tree : Tree) :
    tree ∈ (wrap layers tree).parts := by
  induction layers with
  | nil => exact self_mem_parts tree
  | cons layer rest ih =>
      exact mem_parts_phrase.2 (Or.inr ⟨_, List.mem_append_right _ List.mem_cons_self, ih⟩)

theorem tokens_wrap (layers : List Layer) (tree : Tree) :
    (wrap layers tree).tokens =
      tokensAll (earlierIn layers) ++ (tree.tokens ++ tokensAll (laterIn layers)) := by
  induction layers with
  | nil => simp [wrap, earlierIn, laterIn, tokensAll]
  | cons layer rest ih =>
      simp only [wrap, tokens, tokensAll_append, tokensAll, ih, earlierIn, laterIn,
        List.flatMap_cons, List.append_assoc]

/-- A part of the whole is a part of the tree at the place, or a phrase around
it, or stands before or behind the place. -/
theorem mem_parts_wrap (hpart : part ∈ (wrap layers tree).parts) :
    part ∈ tree.parts ∨
      (∃ outer layer inner, layers = outer ++ layer :: inner ∧
        part = wrap (layer :: inner) tree) ∨
      part ∈ partsAll (earlierIn layers) ∨ part ∈ partsAll (laterIn layers) := by
  induction layers with
  | nil => exact Or.inl hpart
  | cons layer rest ih =>
      rw [wrap] at hpart
      rcases mem_parts_phrase.1 hpart with rfl | ⟨child, hchild, hbelow⟩
      · exact Or.inr (Or.inl ⟨[], layer, rest, rfl, rfl⟩)
      · rcases List.mem_append.1 hchild with hearlier | hlater
        · refine Or.inr (Or.inr (Or.inl (mem_partsAll_iff.2 ⟨child, ?_, hbelow⟩)))
          exact List.mem_append_left _ hearlier
        · rcases List.mem_cons.1 hlater with rfl | hlater
          · rcases ih hbelow with hinner | ⟨outer, inside, inner, rfl, hsame⟩ | hahead | hbehind
            · exact Or.inl hinner
            · exact Or.inr (Or.inl ⟨layer :: outer, inside, inner, rfl, hsame⟩)
            · obtain ⟨sibling, hsibling, hmem⟩ := mem_partsAll_iff.1 hahead
              refine Or.inr (Or.inr (Or.inl (mem_partsAll_iff.2 ⟨sibling, ?_, hmem⟩)))
              exact List.mem_append_right _ hsibling
            · obtain ⟨sibling, hsibling, hmem⟩ := mem_partsAll_iff.1 hbehind
              refine Or.inr (Or.inr (Or.inr (mem_partsAll_iff.2 ⟨sibling, ?_, hmem⟩)))
              exact List.mem_append_left _ hsibling
          · refine Or.inr (Or.inr (Or.inr (mem_partsAll_iff.2 ⟨child, ?_, hbelow⟩)))
            exact List.mem_append_right _ hlater

theorem mem_parts_wrap_of_earlier (hpart : part ∈ partsAll (earlierIn layers)) :
    part ∈ (wrap layers tree).parts := by
  induction layers with
  | nil => exact absurd hpart List.not_mem_nil
  | cons layer rest ih =>
      obtain ⟨sibling, hsibling, hbelow⟩ := mem_partsAll_iff.1 hpart
      rcases List.mem_append.1 hsibling with hearlier | hinner
      · exact mem_parts_phrase.2 (Or.inr ⟨sibling, List.mem_append_left _ hearlier, hbelow⟩)
      · have hrest := ih (mem_partsAll_iff.2 ⟨sibling, hinner, hbelow⟩)
        exact mem_parts_phrase.2 (Or.inr ⟨_, List.mem_append_right _ List.mem_cons_self, hrest⟩)

theorem mem_parts_wrap_of_later (hpart : part ∈ partsAll (laterIn layers)) :
    part ∈ (wrap layers tree).parts := by
  induction layers with
  | nil => exact absurd hpart List.not_mem_nil
  | cons layer rest ih =>
      obtain ⟨sibling, hsibling, hbelow⟩ := mem_partsAll_iff.1 hpart
      rcases List.mem_append.1 hsibling with hinner | hlater
      · have hrest := ih (mem_partsAll_iff.2 ⟨sibling, hinner, hbelow⟩)
        exact mem_parts_phrase.2 (Or.inr ⟨_, List.mem_append_right _ List.mem_cons_self, hrest⟩)
      · exact mem_parts_phrase.2 (Or.inr
          ⟨sibling, List.mem_append_right _ (List.mem_cons_of_mem _ hlater), hbelow⟩)

end Tree

/-! ## Ranges beside a token -/

namespace SourceText

open SymbolIndex.Tree

variable {text : String} {layers : List Layer} {leaf token : Token} {tree part : Tree}

/-- No token comes twice. -/
theorem LaidOut.nodup {tokens : List Token} (hlaid : LaidOut text tokens) : tokens.Nodup := by
  refine hlaid.ordered.imp_of_mem ?_
  rintro earlier later hearlier - hordered rfl
  exact Nat.not_lt.2 hordered (hlaid.wide earlier hearlier)

/-- A token starts where no other does. -/
theorem LaidOut.eq_of_positionAt_start {tokens : List Token} (hlaid : LaidOut text tokens)
    {first second : Token} (hfirst : first ∈ tokens) (hsecond : second ∈ tokens)
    (hsame : positionAt text first.start = positionAt text second.start) : first = second := by
  have hapart : tokens.Pairwise fun left right =>
      positionAt text left.start ≠ positionAt text right.start := by
    apply hlaid.ordered.imp_of_mem
    intro left right hleft hright hordered
    apply ne_of_lt
    apply positionAt_lt (hlaid.boundaries left hleft).1 (hlaid.boundaries right hright).1
    exact Nat.lt_of_lt_of_le (hlaid.wide left hleft) hordered
  have hsymm : Std.Symm fun left right : Token =>
      positionAt text left.start ≠ positionAt text right.start :=
    ⟨fun _ _ hdiffers => hdiffers.symm⟩
  by_cases heq : first = second
  · exact heq
  · exact absurd hsame (hapart.forall hfirst hsecond heq)

/-- Parts with the same range start with the same token, unless they are empty. -/
theorem LaidOut.firstToken?_of_treeRange (hlaid : LaidOut text tree.tokens) {other : Tree}
    (hpart : part ∈ tree.parts) (hother : other ∈ tree.parts)
    (hfirst : part.firstToken? = some leaf) (hsame : treeRange text other = treeRange text part) :
    other.firstToken? = some leaf := by
  have hsolid : leaf ∈ part.solidTokens := List.mem_of_head? hfirst
  have hmem := (tokens_sublist_of_mem_parts tree hpart).subset (tokens_of_mem_solidTokens hsolid).1
  have hheld := Range.containsRange_iff.1 ((hlaid.part hpart).containsRange_treeRange hsolid)
  have hwide : positionAt text leaf.start < positionAt text leaf.stop :=
    positionAt_lt (hlaid.boundaries leaf hmem).1 (hlaid.boundaries leaf hmem).2
      (hlaid.wide leaf hmem)
  have hfull : other.solidTokens ≠ [] := by
    intro hempty
    rw [← hsame, treeRange_of_empty hempty] at hheld
    have hstops := le_trans hheld.2 (zero_le_positionAt text leaf.start)
    exact not_le.2 hwide hstops
  obtain ⟨first, _, _, later, hothers, -, hrange⟩ := @exists_treeRange text other hfull
  obtain ⟨own, _, _, rest, hown, -, hownRange⟩ :=
    @exists_treeRange text part (List.ne_nil_of_mem hsolid)
  have hhead : own = leaf := by
    rw [firstToken?, hown] at hfirst
    exact Option.some.inj hfirst
  have hfirstMem : first ∈ tree.tokens :=
    (tokens_sublist_of_mem_parts tree hother).subset
      (tokens_of_mem_solidTokens (hothers ▸ List.mem_cons_self)).1
  have hstarts : positionAt text first.start = positionAt text leaf.start := by
    rw [hrange, hownRange, hhead] at hsame
    exact congrArg Range.start hsame
  rw [firstToken?, hothers, hlaid.eq_of_positionAt_start hfirstMem hmem hstarts]
  rfl

section

variable (hlaid : LaidOut text (wrap layers tree).tokens) (hleaf : leaf ∈ tree.tokens)
include hlaid hleaf

theorem LaidOut.positionAt_stop_le (hmem : token ∈ tokensAll (earlierIn layers)) :
    positionAt text token.stop ≤ positionAt text leaf.start := by
  have hordered := hlaid.ordered
  have hboundaries := hlaid.boundaries
  rw [tokens_wrap] at hboundaries hordered
  apply positionAt_mono (hboundaries token (List.mem_append_left _ hmem)).2
  exact (List.pairwise_append.1 hordered).2.2 token hmem leaf (List.mem_append_left _ hleaf)

/-- What stands behind a token starts behind its start. -/
theorem LaidOut.lt_positionAt_start (hmem : token ∈ tokensAll (laterIn layers)) :
    positionAt text leaf.start < positionAt text token.start := by
  have hordered := hlaid.ordered
  have hboundaries := hlaid.boundaries
  have hwide := hlaid.wide
  rw [tokens_wrap] at hboundaries hordered hwide
  have hplace : leaf ∈ tokensAll (earlierIn layers) ++
      (tree.tokens ++ tokensAll (laterIn layers)) :=
    List.mem_append_right _ (List.mem_append_left _ hleaf)
  have htoken : token ∈ tokensAll (earlierIn layers) ++
      (tree.tokens ++ tokensAll (laterIn layers)) :=
    List.mem_append_right _ (List.mem_append_right _ hmem)
  have hbehind := (List.pairwise_append.1 (List.pairwise_append.1 hordered).2.1).2.2 leaf hleaf
    token hmem
  exact positionAt_lt (hboundaries leaf hplace).1 (hboundaries token htoken).1
    (Nat.lt_of_lt_of_le (hwide leaf hplace) hbehind)

/-- A token before the place starts before it, too. -/
theorem LaidOut.positionAt_start_le (hmem : token ∈ tokensAll (earlierIn layers)) :
    positionAt text token.start ≤ positionAt text leaf.start := by
  have hboundaries := hlaid.boundaries
  have hwide := hlaid.wide
  rw [tokens_wrap] at hboundaries hwide
  have htoken := List.mem_append_left (tree.tokens ++ tokensAll (laterIn layers)) hmem
  exact le_trans
    (positionAt_mono (hboundaries token htoken).1 (Nat.le_of_lt (hwide token htoken)))
    (hlaid.positionAt_stop_le hleaf hmem)

/-- So does a part before the place, which may be empty. -/
theorem LaidOut.treeRange_start_le (hpart : part ∈ partsAll (earlierIn layers)) :
    (treeRange text part).start ≤ positionAt text leaf.start := by
  by_cases hempty : part.solidTokens = []
  · rw [treeRange_of_empty hempty]
    exact zero_le_positionAt text leaf.start
  · obtain ⟨first, hfirst, hstart⟩ := exists_treeRange_start text hempty
    have hmem := (tokens_of_mem_solidTokens hfirst).1
    rw [hstart]
    exact hlaid.positionAt_start_le hleaf ((tokens_sublist_of_mem_partsAll _ hpart).subset hmem)

theorem LaidOut.lt_treeRange_start (hpart : part ∈ partsAll (laterIn layers))
    (hsolid : part.solidTokens ≠ []) :
    positionAt text leaf.start < (treeRange text part).start := by
  obtain ⟨first, hfirst, hstart⟩ := exists_treeRange_start text hsolid
  have hmem := (tokens_of_mem_solidTokens hfirst).1
  rw [hstart]
  exact hlaid.lt_positionAt_start hleaf ((tokens_sublist_of_mem_partsAll _ hpart).subset hmem)

/-- The range of a token beside the place contains the start of one at the place only as its
end. -/
theorem LaidOut.tokenRange_stop_of_contains
    (hmem : token ∈ tokensAll (earlierIn layers) ∨ token ∈ tokensAll (laterIn layers))
    (hcontains : (tokenRange text token).contains (positionAt text leaf.start) = true) :
    (tokenRange text token).stop = positionAt text leaf.start := by
  obtain ⟨hstart, hstop⟩ := Range.contains_iff.1 hcontains
  rcases hmem with hearlier | hlater
  · exact le_antisymm (hlaid.positionAt_stop_le hleaf hearlier) hstop
  · exact absurd hstart (not_le.2 (hlaid.lt_positionAt_start hleaf hlater))

/-- So does the range of a part beside the place, which may be empty. -/
theorem LaidOut.treeRange_stop_of_contains
    (hpart : part ∈ partsAll (earlierIn layers) ∨ part ∈ partsAll (laterIn layers))
    (hcontains : (treeRange text part).contains (positionAt text leaf.start) = true) :
    (treeRange text part).stop = positionAt text leaf.start := by
  obtain ⟨hstart, hstop⟩ := Range.contains_iff.1 hcontains
  by_cases hempty : part.solidTokens = []
  · rw [treeRange_of_empty hempty] at hstart hstop ⊢
    exact le_antisymm hstart hstop
  · rcases hpart with hearlier | hlater
    · obtain ⟨first, last, earlier, later, -, hlast, hrange⟩ := @exists_treeRange text part hempty
      have hmem := (tokens_of_mem_solidTokens
        (hlast ▸ List.mem_append_right _ List.mem_cons_self)).1
      rw [hrange] at hstop ⊢
      have hbefore := (tokens_sublist_of_mem_partsAll _ hearlier).subset hmem
      exact le_antisymm (hlaid.positionAt_stop_le hleaf hbefore) hstop
    · exact absurd hstart (not_le.2 (hlaid.lt_treeRange_start hleaf hlater hempty))

end

/-- Trees one after the other start in this order, the empty ones aside. -/
theorem LaidOut.pairwise_start {trees : List Tree} (hlaid : LaidOut text (tokensAll trees)) :
    trees.Pairwise fun earlier later => later.solidTokens ≠ [] →
      (treeRange text earlier).start ≤ (treeRange text later).start := by
  induction trees with
  | nil => exact List.Pairwise.nil
  | cons tree rest ih =>
      rw [tokensAll] at hlaid
      refine List.pairwise_cons.2 ⟨?_, ih (hlaid.sublist (List.sublist_append_right _ _))⟩
      intro other hother hsolid
      obtain ⟨before, after, rfl⟩ := List.append_of_mem hother
      obtain ⟨first, hfirst, hstart⟩ := exists_treeRange_start text hsolid
      have hmem := (tokens_of_mem_solidTokens hfirst).1
      -- The two stand in one phrase, of whatever kind.
      have hplace : wrap [⟨.error, tree :: before, after⟩] other =
          .phrase .error (tree :: (before ++ other :: after)) := rfl
      have hwhole : LaidOut text (wrap [⟨.error, tree :: before, after⟩] other).tokens := by
        rw [hplace, tokens, tokensAll]
        exact hlaid
      rw [hstart]
      exact hwhole.treeRange_start_le hmem
        (mem_partsAll_iff.2 ⟨tree, List.mem_append_left _ List.mem_cons_self, self_mem_parts tree⟩)

end SourceText

end SymbolIndex
