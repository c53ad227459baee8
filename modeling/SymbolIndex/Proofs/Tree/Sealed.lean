import SymbolIndex.Proofs.Tree.Parts

/-!
# Phrases with errors

Trees are alike when they differ in nothing but what stands in phrases with
errors, and each of these phrases starts and stops with the same tokens in both.
Sealing a tree leaves only these two tokens in such a phrase, so like trees have
the same sealed form.  What looks at kinds, at first and last tokens, and at the
children of other phrases reads the same from a tree and from its sealed form.
-/

namespace SymbolIndex

namespace Tree

mutual

/-- The trees are equal except for what is in phrases with errors, and these have the same first
and the same last token that is no blank or comment, or none. -/
inductive Alike : Tree → Tree → Prop
  | token (leaf : Token) : Alike (Tree.token leaf) (Tree.token leaf)
  | error {children others : List Tree}
      (hfirst : (Tree.phrase .error children).firstToken? = (Tree.phrase .error others).firstToken?)
      (hlast : (Tree.phrase .error children).lastToken? = (Tree.phrase .error others).lastToken?) :
      Alike (Tree.phrase .error children) (Tree.phrase .error others)
  | phrase {kind : PhraseKind} {children others : List Tree} (hkind : kind ≠ .error)
      (hchildren : AlikeAll children others) :
      Alike (Tree.phrase kind children) (Tree.phrase kind others)

inductive AlikeAll : List Tree → List Tree → Prop
  | nil : AlikeAll [] []
  | cons {tree other : Tree} {rest others : List Tree} (htree : Alike tree other)
      (hrest : AlikeAll rest others) : AlikeAll (tree :: rest) (other :: others)

end

mutual

theorem Alike.refl : (tree : Tree) → Alike tree tree
  | Tree.token leaf => .token leaf
  | Tree.phrase kind children => by
      by_cases herror : kind = .error
      · subst herror
        exact .error rfl rfl
      · exact .phrase herror (AlikeAll.refl children)

theorem AlikeAll.refl : (trees : List Tree) → AlikeAll trees trees
  | [] => .nil
  | tree :: rest => .cons (Alike.refl tree) (AlikeAll.refl rest)

end

/-- The first and the last token of a tree that are no blanks or comments. -/
def ends (tree : Tree) : List Token :=
  tree.firstToken?.toList ++ tree.lastToken?.toList

mutual

/-- The tree with nothing but its ends in each phrase with errors. -/
def sealed : Tree → Tree
  | token leaf => token leaf
  | phrase kind children =>
    phrase kind (if kind = .error then (ends (phrase kind children)).map token
      else sealedAll children)

def sealedAll : List Tree → List Tree
  | [] => []
  | tree :: rest => sealed tree :: sealedAll rest

end

mutual

theorem sealed_eq_of_alike : {tree other : Tree} → Alike tree other → tree.sealed = other.sealed
  | _, _, .token _ => rfl
  | _, _, .error hfirst hlast => by simp [sealed, ends, hfirst, hlast]
  | _, _, .phrase hkind hchildren => by
      simp [sealed, hkind, sealedAll_eq_of_alikeAll hchildren]

theorem sealedAll_eq_of_alikeAll : {trees others : List Tree} → AlikeAll trees others →
    sealedAll trees = sealedAll others
  | _, _, .nil => rfl
  | _, _, .cons htree hrest => by
      simp [sealedAll, sealed_eq_of_alike htree, sealedAll_eq_of_alikeAll hrest]

end

/-- The tree is no phrase with errors. -/
def Intact (tree : Tree) : Prop :=
  tree.phraseKind? ≠ some .error

theorem intact_of_phraseKind? {tree : Tree} {kind : PhraseKind}
    (hkind : tree.phraseKind? = some kind) (hintact : kind ≠ .error) : tree.Intact := by
  simp [Intact, hkind, hintact]

theorem sealedAll_eq_map (trees : List Tree) : sealedAll trees = trees.map sealed := by
  induction trees with
  | nil => rfl
  | cons tree rest ih => simp [sealedAll, ih]

variable {tree : Tree} {kind : PhraseKind}

mutual

/-- The parts of a tree save for those inside phrases with errors. -/
def outerParts : Tree → List Tree
  | token leaf => [token leaf]
  | phrase kind children =>
    phrase kind children :: if kind = .error then [] else outerPartsAll children

def outerPartsAll : List Tree → List Tree
  | [] => []
  | tree :: rest => outerParts tree ++ outerPartsAll rest

end

theorem self_mem_outerParts (tree : Tree) : tree ∈ tree.outerParts := by
  cases tree with
  | token leaf => simp [outerParts]
  | phrase kind children => simp [outerParts]

/-! ## What is the same in the sealed form -/

@[simp]
theorem sealed_token (leaf : Token) : (token leaf).sealed = token leaf :=
  rfl

@[simp]
theorem phraseKind?_sealed (tree : Tree) : tree.sealed.phraseKind? = tree.phraseKind? := by
  cases tree with
  | token leaf => rfl
  | phrase kind children => simp [sealed, phraseKind?]

@[simp]
theorem token?_sealed (tree : Tree) : tree.sealed.token? = tree.token? := by
  cases tree with
  | token leaf => rfl
  | phrase kind children => simp [sealed, token?]

@[simp]
theorem isPhrase_sealed (tree : Tree) (kind : PhraseKind) :
    tree.sealed.isPhrase kind = tree.isPhrase kind := by
  simp [isPhrase]

@[simp]
theorem isToken_sealed (tree : Tree) (kind : TokenKind) :
    tree.sealed.isToken kind = tree.isToken kind := by
  simp [isToken, tokenKind?]

theorem sealed_phrase {children : List Tree} (hintact : kind ≠ .error) :
    (phrase kind children).sealed = phrase kind (children.map sealed) := by
  simp [sealed, hintact, sealedAll_eq_map]

theorem children_sealed (hintact : tree.Intact) :
    tree.sealed.children = tree.children.map sealed := by
  cases tree with
  | token leaf => rfl
  | phrase kind children =>
      have hkind : kind ≠ .error := fun herror => hintact (congrArg some herror)
      rw [sealed_phrase hkind]
      rfl

/-! ## Children -/

theorem childToken?_sealed (hintact : tree.Intact) (kind : TokenKind) :
    tree.sealed.childToken? kind = tree.childToken? kind := by
  have htokens : token? ∘ sealed = token? := funext token?_sealed
  rw [childToken?, childToken?, children_sealed hintact, List.filterMap_map, htokens]

theorem childPhrase?_sealed (hintact : tree.Intact) (kind : PhraseKind) :
    tree.sealed.childPhrase? kind = (tree.childPhrase? kind).map sealed := by
  have hphrases : (·.isPhrase kind) ∘ sealed = (·.isPhrase kind) :=
    funext fun child => isPhrase_sealed child kind
  rw [childPhrase?, childPhrase?, children_sealed hintact, List.find?_map, hphrases]

theorem intact_of_childPhrase? {child : Tree} (hchild : tree.childPhrase? kind = some child)
    (hintact : kind ≠ .error) : child.Intact :=
  intact_of_phraseKind? (mem_children_of_childPhrase? hchild).2 hintact

/-! ## First and last tokens -/

theorem isTrivia_of_mem_ends {leaf : Token} (hleaf : leaf ∈ tree.ends) :
    leaf.kind.isTrivia = false := by
  have hsolid : leaf ∈ tree.solidTokens := by
    rcases List.mem_append.1 hleaf with hfirst | hlast
    · exact List.mem_of_head? (Option.mem_toList.1 hfirst)
    · exact List.mem_of_getLast? (Option.mem_toList.1 hlast)
  simpa using (List.mem_filter.1 hsolid).2

theorem tokensAll_map_token (leaves : List Token) : tokensAll (leaves.map token) = leaves := by
  induction leaves with
  | nil => rfl
  | cons leaf rest ih => simp [tokensAll, tokens, ih]

theorem solidTokens_sealed_error (children : List Tree) :
    (phrase .error children).sealed.solidTokens = (phrase .error children).ends := by
  have htokens : (phrase .error children).sealed.solidTokens =
      (phrase .error children).ends.filter fun leaf => !leaf.kind.isTrivia := by
    simp [sealed, solidTokens, tokens, tokensAll_map_token]
  rw [htokens]
  apply List.filter_eq_self.2
  intro leaf hleaf
  simp [isTrivia_of_mem_ends hleaf]

/-- The first and the last of a list start and stop what they make up. -/
theorem head?_ends {α : Type} (items : List α) :
    (items.head?.toList ++ items.getLast?.toList).head? = items.head? ∧
      (items.head?.toList ++ items.getLast?.toList).getLast? = items.getLast? := by
  cases items with
  | nil => simp
  | cons first rest => simp [List.getLast?_cons]

/-- The solid tokens of some trees. -/
def solidTokensAll (trees : List Tree) : List Token :=
  (tokensAll trees).filter fun leaf => !leaf.kind.isTrivia

theorem solidTokensAll_cons (tree : Tree) (rest : List Tree) :
    solidTokensAll (tree :: rest) = tree.solidTokens ++ solidTokensAll rest := by
  simp [solidTokensAll, solidTokens, tokensAll]

mutual

/-- Sealing keeps the first and the last solid token. -/
theorem ends_sealed : (tree : Tree) →
    tree.sealed.solidTokens.head? = tree.solidTokens.head? ∧
      tree.sealed.solidTokens.getLast? = tree.solidTokens.getLast?
  | token leaf => by simp
  | phrase kind children => by
      by_cases herror : kind = .error
      · subst herror
        rw [solidTokens_sealed_error]
        exact head?_ends _
      · rw [sealed_phrase herror]
        exact endsAll_sealed children

theorem endsAll_sealed : (trees : List Tree) →
    (solidTokensAll (trees.map sealed)).head? = (solidTokensAll trees).head? ∧
      (solidTokensAll (trees.map sealed)).getLast? = (solidTokensAll trees).getLast?
  | [] => by simp
  | tree :: rest => by
      obtain ⟨hfirst, hlast⟩ := ends_sealed tree
      obtain ⟨hfirstRest, hlastRest⟩ := endsAll_sealed rest
      simp [solidTokensAll_cons, hfirst, hlast, hfirstRest, hlastRest]

end

@[simp]
theorem firstToken?_sealed (tree : Tree) : tree.sealed.firstToken? = tree.firstToken? :=
  (ends_sealed tree).1

@[simp]
theorem lastToken?_sealed (tree : Tree) : tree.sealed.lastToken? = tree.lastToken? :=
  (ends_sealed tree).2

end Tree

namespace Document

variable (document : Document)

@[simp]
theorem treeText_sealed (tree : Tree) : document.treeText tree.sealed = document.treeText tree := by
  simp [treeText, SourceText.treeText]

@[simp]
theorem treeRange_sealed (tree : Tree) :
    document.treeRange tree.sealed = document.treeRange tree := by
  simp [treeRange, SourceText.treeRange]

end Document

end SymbolIndex
