import SymbolIndex.Document
import SymbolIndex.Proofs.SourceText

/-!
# Parts of a tree

The parts of a tree are the tree itself and all trees below it; their tokens are
tokens of the tree, in the same order.  When these stand one after the other on
characters of the text, the range of a part holds its own tokens and lies inside
every range that holds them.
-/

namespace SymbolIndex

namespace Tree

mutual

/-- The tree and all trees below it, each before those below it. -/
def parts : Tree → List Tree
  | phrase kind children => phrase kind children :: partsAll children
  | token leaf => [token leaf]

def partsAll : List Tree → List Tree
  | [] => []
  | tree :: rest => parts tree ++ partsAll rest

end

variable {tree part child : Tree} {trees children : List Tree} {kind : PhraseKind}

theorem mem_partsAll_iff : part ∈ partsAll trees ↔ ∃ tree ∈ trees, part ∈ tree.parts := by
  induction trees with
  | nil => simp [partsAll]
  | cons tree rest ih => simp [partsAll, ih]

theorem mem_parts_phrase :
    part ∈ (phrase kind children).parts ↔
      part = phrase kind children ∨ ∃ child ∈ children, part ∈ child.parts := by
  rw [parts, List.mem_cons, mem_partsAll_iff]

theorem self_mem_parts (tree : Tree) : tree ∈ tree.parts := by
  cases tree with
  | phrase kind children => exact mem_parts_phrase.2 (Or.inl rfl)
  | token leaf => exact List.mem_singleton.2 rfl

theorem mem_parts_of_mem_children (hchild : child ∈ tree.children) : child ∈ tree.parts := by
  cases tree with
  | phrase kind children => exact mem_parts_phrase.2 (Or.inr ⟨child, hchild, self_mem_parts child⟩)
  | token leaf => exact absurd hchild List.not_mem_nil

theorem mem_children_of_childPhrase? (hchild : tree.childPhrase? kind = some child) :
    child ∈ tree.children ∧ child.phraseKind? = some kind := by
  rw [childPhrase?] at hchild
  have hkind := List.find?_some hchild
  exact ⟨List.mem_of_find?_eq_some hchild, beq_iff_eq.1 hkind⟩

theorem mem_children_of_childToken? {kind : TokenKind} {leaf : Token}
    (hleaf : tree.childToken? kind = some leaf) :
    token leaf ∈ tree.children ∧ leaf.kind = kind := by
  rw [childToken?] at hleaf
  have hkind := List.find?_some hleaf
  obtain ⟨child, hchild, hsome⟩ := List.mem_filterMap.1 (List.mem_of_find?_eq_some hleaf)
  cases child with
  | phrase _ _ => cases hsome
  | token other =>
      cases hsome
      exact ⟨hchild, beq_iff_eq.1 hkind⟩

mutual

/-- A part of a part is a part. -/
theorem mem_parts_trans : (tree : Tree) → ∀ {middle part : Tree}, middle ∈ tree.parts →
    part ∈ middle.parts → part ∈ tree.parts
  | .phrase kind children => by
      intro hmiddle hpart
      rw [parts] at hmiddle
      rcases List.mem_cons.1 hmiddle with rfl | hbelow
      · exact hpart
      · rw [parts]
        exact List.mem_cons_of_mem _ (mem_partsAll_trans children hbelow hpart)
  | .token leaf => by
      intro hmiddle hpart
      rw [parts] at hmiddle
      obtain rfl := List.mem_singleton.1 hmiddle
      exact hpart

theorem mem_partsAll_trans : (trees : List Tree) → ∀ {middle part : Tree},
    middle ∈ partsAll trees → part ∈ middle.parts → part ∈ partsAll trees
  | [] => fun hmiddle _ => absurd hmiddle List.not_mem_nil
  | tree :: rest => by
      intro hmiddle hpart
      rw [partsAll] at hmiddle ⊢
      rcases List.mem_append.1 hmiddle with hfirst | hrest
      · exact List.mem_append_left _ (mem_parts_trans tree hfirst hpart)
      · exact List.mem_append_right _ (mem_partsAll_trans rest hrest hpart)

end

/-! ## Tokens of parts -/

theorem tokensAll_append (left right : List Tree) :
    tokensAll (left ++ right) = tokensAll left ++ tokensAll right := by
  induction left with
  | nil => rfl
  | cons tree rest ih => rw [List.cons_append, tokensAll, tokensAll, ih, List.append_assoc]

mutual

/-- The tokens of a part are some of those of the tree, in order. -/
theorem tokens_sublist_of_mem_parts : (tree : Tree) → ∀ {part : Tree}, part ∈ tree.parts →
    part.tokens.Sublist tree.tokens
  | .phrase kind children => by
      intro hpart
      rw [parts] at hpart
      rcases List.mem_cons.1 hpart with rfl | hbelow
      · exact List.Sublist.refl _
      · rw [tokens]
        exact tokens_sublist_of_mem_partsAll children hbelow
  | .token leaf => by
      intro hpart
      rw [parts] at hpart
      obtain rfl := List.mem_singleton.1 hpart
      exact List.Sublist.refl _

theorem tokens_sublist_of_mem_partsAll : (trees : List Tree) → ∀ {part : Tree},
    part ∈ partsAll trees → part.tokens.Sublist (tokensAll trees)
  | [] => fun hpart => absurd hpart List.not_mem_nil
  | tree :: rest => by
      intro hpart
      rw [partsAll] at hpart
      rw [tokensAll]
      rcases List.mem_append.1 hpart with hfirst | hrest
      · exact (tokens_sublist_of_mem_parts tree hfirst).trans (List.sublist_append_left _ _)
      · exact (tokens_sublist_of_mem_partsAll rest hrest).trans (List.sublist_append_right _ _)

end

theorem mem_tokens_of_mem_children {leaf : Token} (hleaf : token leaf ∈ tree.children) :
    leaf ∈ tree.tokens :=
  (tokens_sublist_of_mem_parts tree (mem_parts_of_mem_children hleaf)).subset
    (List.mem_singleton.2 rfl)

theorem tokens_of_mem_solidTokens {leaf : Token} (hleaf : leaf ∈ tree.solidTokens) :
    leaf ∈ tree.tokens ∧ leaf.kind.isTrivia = false := by
  obtain ⟨hmem, hsolid⟩ := List.mem_filter.1 hleaf
  exact ⟨hmem, Bool.not_eq_eq_eq_not.1 hsolid⟩

theorem mem_solidTokens {leaf : Token} (hleaf : leaf ∈ tree.tokens)
    (hsolid : leaf.kind.isTrivia = false) : leaf ∈ tree.solidTokens :=
  List.mem_filter.2 ⟨hleaf, by rw [hsolid, Bool.not_false]⟩

end Tree

/-! ## Tokens laid out in a text -/

namespace SourceText

/-- Tokens that are not empty and stand one after the other on whole characters
of a text. -/
structure LaidOut (text : String) (tokens : List Token) : Prop where
  wide : ∀ token ∈ tokens, token.start < token.stop
  ordered : tokens.Pairwise fun earlier later => earlier.stop ≤ later.start
  inside : ∀ token ∈ tokens, token.stop ≤ text.utf8ByteSize
  boundaries : ∀ token ∈ tokens,
    isBoundary text token.start = true ∧ isBoundary text token.stop = true

instance (text : String) (tokens : List Token) : Decidable (LaidOut text tokens) :=
  decidable_of_iff
    ((∀ token ∈ tokens, token.start < token.stop) ∧
      (tokens.Pairwise fun earlier later => earlier.stop ≤ later.start) ∧
      (∀ token ∈ tokens, token.stop ≤ text.utf8ByteSize) ∧
      ∀ token ∈ tokens,
        isBoundary text token.start = true ∧ isBoundary text token.stop = true)
    ⟨fun ⟨hwide, hordered, hinside, hboundaries⟩ => ⟨hwide, hordered, hinside, hboundaries⟩,
      fun ⟨hwide, hordered, hinside, hboundaries⟩ => ⟨hwide, hordered, hinside, hboundaries⟩⟩

variable {text : String} {tokens : List Token} {tree : Tree} {token : Token}

theorem LaidOut.sublist (hlaid : LaidOut text tokens) {fewer : List Token}
    (hfewer : fewer.Sublist tokens) : LaidOut text fewer where
  wide token hmem := hlaid.wide token (hfewer.subset hmem)
  ordered := hlaid.ordered.sublist hfewer
  inside token hmem := hlaid.inside token (hfewer.subset hmem)
  boundaries token hmem := hlaid.boundaries token (hfewer.subset hmem)

theorem LaidOut.part (hlaid : LaidOut text tree.tokens) {part : Tree} (hpart : part ∈ tree.parts) :
    LaidOut text part.tokens :=
  hlaid.sublist (Tree.tokens_sublist_of_mem_parts tree hpart)

theorem LaidOut.solid (hlaid : LaidOut text tree.tokens) : LaidOut text tree.solidTokens :=
  hlaid.sublist List.filter_sublist

theorem treeRange_of_empty (hempty : tree.solidTokens = []) :
    treeRange text tree = ⟨⟨0, 0⟩, ⟨0, 0⟩⟩ := by
  rw [treeRange, Tree.firstToken?, hempty]
  rfl

/-- A range starts with a token and stops with one. -/
theorem exists_treeRange (hsolid : tree.solidTokens ≠ []) :
    ∃ first last earlier later, tree.solidTokens = first :: later ∧
      tree.solidTokens = earlier ++ [last] ∧
      treeRange text tree = ⟨positionAt text first.start, positionAt text last.stop⟩ := by
  obtain ⟨first, later, hfirst⟩ := List.exists_cons_of_ne_nil hsolid
  have hlast := List.dropLast_concat_getLast hsolid
  refine ⟨first, tree.solidTokens.getLast hsolid, tree.solidTokens.dropLast, later, hfirst,
    hlast.symm, ?_⟩
  have hhead : tree.firstToken? = some first := by
    rw [Tree.firstToken?, hfirst]
    rfl
  have htail : tree.lastToken? = some (tree.solidTokens.getLast hsolid) :=
    List.getLast?_eq_some_getLast hsolid
  rw [treeRange, hhead, htail]

/-- The start of a range is the start of a token. -/
theorem exists_treeRange_start (text : String) (hsolid : tree.solidTokens ≠ []) :
    ∃ first ∈ tree.solidTokens, (treeRange text tree).start = positionAt text first.start := by
  obtain ⟨first, last, earlier, later, hfirst, -, hrange⟩ := @exists_treeRange text tree hsolid
  exact ⟨first, hfirst ▸ List.mem_cons_self, congrArg Range.start hrange⟩

/-- The range of a tree holds its tokens. -/
theorem LaidOut.containsRange_treeRange (hlaid : LaidOut text tree.tokens)
    (hmem : token ∈ tree.solidTokens) :
    (treeRange text tree).containsRange (tokenRange text token) = true := by
  have hsolid := hlaid.solid
  have hwide := hsolid.wide
  have hboundaries := hsolid.boundaries
  have hordered := hsolid.ordered
  obtain ⟨first, last, earlier, later, hfirst, hlast, hrange⟩ :=
    exists_treeRange (List.ne_nil_of_mem hmem)
  rw [hrange, Range.containsRange_iff]
  constructor
  · rw [hfirst] at hmem hwide hboundaries hordered
    apply positionAt_mono (hboundaries first List.mem_cons_self).1
    rcases List.mem_cons.1 hmem with rfl | hlater
    · exact Nat.le_refl _
    · exact Nat.le_trans (Nat.le_of_lt (hwide first List.mem_cons_self))
        (List.rel_of_pairwise_cons hordered hlater)
  · apply positionAt_mono (hboundaries token hmem).2
    rw [hlast] at hmem hwide hordered
    rcases List.mem_append.1 hmem with hearlier | hsame
    · have hlastMem : last ∈ earlier ++ [last] := List.mem_append_right _ List.mem_cons_self
      exact Nat.le_trans ((List.pairwise_append.1 hordered).2.2 token hearlier last
        List.mem_cons_self) (Nat.le_of_lt (hwide last hlastMem))
    · exact Nat.le_of_eq (congrArg Token.stop (List.mem_singleton.1 hsame))

/-- The range of a tree lies inside every range that holds its tokens. -/
theorem containsRange_of_tokens {range : Range} (hsolid : tree.solidTokens ≠ [])
    (hholds : ∀ token ∈ tree.solidTokens, range.containsRange (tokenRange text token) = true) :
    range.containsRange (treeRange text tree) = true := by
  obtain ⟨first, last, earlier, later, hfirst, hlast, hrange⟩ := @exists_treeRange text tree hsolid
  have hstart := hholds first (hfirst ▸ List.mem_cons_self)
  have hstop := hholds last (hlast ▸ List.mem_append_right _ List.mem_cons_self)
  rw [Range.containsRange_iff] at hstart hstop ⊢
  rw [hrange]
  exact ⟨hstart.1, hstop.2⟩

/-- All tokens lie between the ends of the text. -/
theorem LaidOut.containsRange_whole (hlaid : LaidOut text tokens) (hmem : token ∈ tokens) :
    (Range.mk ⟨0, 0⟩ (positionAt text text.utf8ByteSize)).containsRange
      (tokenRange text token) = true :=
  Range.containsRange_iff.2 ⟨zero_le_positionAt text token.start,
    positionAt_mono (hlaid.boundaries token hmem).2 (hlaid.inside token hmem)⟩

end SourceText

end SymbolIndex
