import SymbolIndex.Proofs.Reading.Entries
import SymbolIndex.Proofs.Symbol.Marks

/-!
# What is brought before and behind a place

When the walk over declarations comes to a place, the symbols that it has read
were brought by the trees before the place and by the phrases around it.  What it
reads from there on is brought by the tree at the place and those behind it.
A symbol stands at its phrase, at an element of the phrase if the walk does not
go below it, or at a variable that the phrase assigns.
-/

namespace SymbolIndex.Reading

open SymbolIndex.Tree

variable {doc : Document}

/-! ## Where brought symbols stand -/

mutual

theorem assignedTokens_subset : (tree : Tree) → assignedTokens tree ⊆ tree.tokens
  | .token leaf => by
      rw [assignedTokens]
      exact List.nil_subset _
  | .phrase kind children => by
      cases kind
      case simpleVariable =>
        intro leaf hleaf
        have hchild : (Tree.phrase .simpleVariable children).childToken? .variableName =
            some leaf := Option.mem_toList.1 hleaf
        exact mem_tokens_of_mem_children (mem_children_of_childToken? hchild).1
      case arrayCreationExpression =>
        rw [assignedTokens, tokens]
        exact assignedInArray_subset children
      all_goals
        rw [assignedTokens]
        · exact List.nil_subset _
        · exact nofun
        · exact nofun

theorem assignedInArray_subset : (trees : List Tree) → assignedInArray trees ⊆ tokensAll trees
  | [] => List.nil_subset _
  | .token leaf :: rest => by
      rw [assignedInArray, tokensAll]
      · exact fun _ hmem => List.mem_append_right _ (assignedInArray_subset rest hmem)
      · exact nofun
  | .phrase kind elements :: rest => by
      rw [tokensAll, tokens]
      by_cases hkind : kind = .arrayInitialiserList
      · rw [hkind, assignedInArray]
        exact fun _ hmem => List.mem_append_left _ (assignedInElements_subset elements hmem)
      · rw [assignedInArray]
        · exact fun _ hmem => List.mem_append_right _ (assignedInArray_subset rest hmem)
        · exact fun _ heq => hkind (Tree.phrase.inj heq).1

theorem assignedInElements_subset : (trees : List Tree) →
    assignedInElements trees ⊆ tokensAll trees
  | [] => List.nil_subset _
  | .token leaf :: rest => by
      rw [assignedInElements, tokensAll]
      exact fun _ hmem => List.mem_append_right _ (assignedInElements_subset rest hmem)
  | .phrase kind parts :: rest => by
      rw [assignedInElements, tokensAll, tokens]
      intro leaf hmem
      rcases List.mem_append.1 hmem with hfirst | hlater
      · exact List.mem_append_left _ (assignedInValue_subset parts hfirst)
      · exact List.mem_append_right _ (assignedInElements_subset rest hlater)

theorem assignedInValue_subset : (trees : List Tree) → assignedInValue trees ⊆ tokensAll trees
  | [] => List.nil_subset _
  | .token leaf :: rest => by
      rw [assignedInValue, tokensAll]
      · exact fun _ hmem => List.mem_append_right _ (assignedInValue_subset rest hmem)
      · exact nofun
  | .phrase kind values :: rest => by
      rw [tokensAll, tokens]
      by_cases hkind : kind = .arrayValue
      · rw [hkind, assignedInValue]
        exact fun _ hmem => List.mem_append_left _ (assignedInLast_subset values hmem)
      · rw [assignedInValue]
        · exact fun _ hmem => List.mem_append_right _ (assignedInValue_subset rest hmem)
        · exact fun _ heq => hkind (Tree.phrase.inj heq).1

theorem assignedInLast_subset : (trees : List Tree) → assignedInLast trees ⊆ tokensAll trees
  | [] => List.nil_subset _
  | [last] => by
      rw [assignedInLast, tokensAll]
      exact fun _ hmem => List.mem_append_left _ (assignedTokens_subset last hmem)
  | first :: second :: rest => by
      rw [assignedInLast, tokensAll]
      · exact fun _ hmem => List.mem_append_right _ (assignedInLast_subset (second :: rest) hmem)
      · exact nofun

end

theorem targetTokens_subset (tree : Tree) : targetTokens tree ⊆ tree.tokens := by
  intro leaf hleaf
  have hassigned : ∀ {child? : Option Tree}, (∀ child ∈ child?, child ∈ tree.children) →
      leaf ∈ child?.toList.flatMap assignedTokens → leaf ∈ tree.tokens := by
    intro child? hchild hmem
    obtain ⟨child, hsome, hassigned⟩ := List.mem_flatMap.1 hmem
    have hpart := mem_parts_of_mem_children (hchild child (Option.mem_toList.1 hsome))
    exact (tokens_sublist_of_mem_parts tree hpart).subset (assignedTokens_subset child hassigned)
  rw [targetTokens] at hleaf
  split at hleaf
  · exact hassigned (fun child hchild => List.mem_of_mem_head? hchild) hleaf
  · exact hassigned (fun child hchild => List.mem_of_mem_head? hchild) hleaf
  · exact hassigned (fun child hchild => List.mem_of_mem_head? hchild) hleaf
  · exact hassigned (fun child hchild => List.mem_of_find?_eq_some hchild) hleaf
  · exact hassigned (fun child hchild => List.mem_of_find?_eq_some hchild) hleaf
  · exact mem_tokens_of_mem_children (mem_children_of_childToken? (Option.mem_toList.1 hleaf)).1
  · exact absurd hleaf List.not_mem_nil

/-- The place of a symbol that a phrase brings. -/
inductive Stands (doc : Document) (kind : PhraseKind) (tree : Tree) (symbol : Symbol) : Prop
  | phrase (hlocation : symbol.location = locationOf doc tree)
  | element (element : Tree) (hpasses : descendsForDeclarations kind = false)
      (helement : element ∈ tree.parts) (hlocation : symbol.location = locationOf doc element)
  | target (leaf : Token) (hleaf : leaf ∈ targetTokens tree)
      (hlocation : symbol.location = tokenLocation doc leaf)

/-- Each symbol has its place in the phrase that brings it. -/
theorem stands_of_mem_broughtBy {kind : PhraseKind} {children : List Tree}
    {state : DeclarationState} {symbol : Symbol}
    (hmem : symbol ∈ broughtBy doc state kind (.phrase kind children)) :
    Stands doc kind (.phrase kind children) symbol := by
  cases brought_of_mem_broughtBy hmem with
  | mark _ hsymbol => exact .phrase (by rw [hsymbol]; rfl)
  | clause clause hphrase hclause _ hread =>
      exact .element clause (by rw [hphrase]; rfl) hclause hread.location
  | declaration _ hmirrors => exact .phrase hmirrors.location
  | element element hplace hread _ =>
      rcases hplace with rfl | ⟨helement, hpasses⟩
      · exact .phrase hread.location
      · exact .element element hpasses helement hread.location
  | target leaf _ hleaf hsymbol => exact .target leaf hleaf (by rw [hsymbol]; rfl)

/-! ## What has been brought on arrival, and what is brought behind -/

namespace DeclarationState.All

variable {base : List Symbol} {P : Symbol → Prop} {state : DeclarationState}
  {layers : List Layer} {part : Tree}

/-- What all symbols have that are brought in one of some trees. -/
theorem run_of_forall {trees : List Tree} (hlasting : Lasting P)
    (hbrought : ∀ kind children before, .phrase kind children ∈ partsAll trees →
      ∀ symbol ∈ broughtBy doc before kind (.phrase kind children), P symbol) :
    ∀ tree ∈ trees, ∀ before : DeclarationState, before.All base P →
      ((declarationWalk doc).run tree before).All base P :=
  fun _ htree _ hbefore => hbefore.run hlasting fun kind children inside hvisits =>
    hbrought kind children inside (mem_partsAll_iff.2 ⟨_, htree, hvisits.mem_parts⟩)

/-- A property of what has been brought holds on arrival, if it holds of all that is brought
around the place and before it. -/
theorem arrive (hstate : state.All base P) (hlasting : Lasting P)
    (haround : ∀ layer inner before, layer :: inner <:+ layers →
      ∀ symbol ∈ broughtBy doc before layer.kind (wrap (layer :: inner) part), P symbol)
    (hearlier : ∀ kind children before, .phrase kind children ∈ partsAll (earlierIn layers) →
      ∀ symbol ∈ broughtBy doc before kind (.phrase kind children), P symbol) :
    ((declarationWalk doc).arrive layers part state).All base P :=
  Walk.arrive_of_keeps hstate
    (fun layer inner hinner before hbefore =>
      hbefore.enter hlasting (haround layer inner before hinner))
    (run_of_forall hlasting hearlier)

/-- A property of what has been brought holds at the end, if it holds at the place and of all that
is brought behind it. -/
theorem run_wrap (hlasting : Lasting P)
    (hdescends : ∀ layer ∈ layers, descendsForDeclarations layer.kind = true)
    (hpart : ((declarationWalk doc).run part
      ((declarationWalk doc).arrive layers part state)).All base P)
    (hlater : ∀ kind children before, .phrase kind children ∈ partsAll (laterIn layers) →
      ∀ symbol ∈ broughtBy doc before kind (.phrase kind children), P symbol) :
    ((declarationWalk doc).run (wrap layers part) state).All base P :=
  Walk.run_wrap_of_keeps hdescends hpart (run_of_forall hlasting hlater)
    fun kind tree _ hbefore => hbefore.leave hlasting kind tree

end DeclarationState.All

/-! ## What is open on arrival -/

section

variable {layers : List Layer} {part : Tree}

theorem wrap_mem_parts {layer : Layer} {inner : List Layer} (htree : doc.tree = wrap layers part)
    (hinner : layer :: inner <:+ layers) : wrap (layer :: inner) part ∈ doc.tree.parts := by
  obtain ⟨outer, rfl⟩ := hinner
  rw [htree, wrap_append]
  exact self_mem_parts_wrap outer _

/-- Where no declaration is around, nothing is open. -/
theorem opened_arrive (hplain : ∀ layer ∈ layers, declaresScope layer.kind = false) :
    ((declarationWalk doc).arrive layers part (DeclarationState.start doc)).opened = [] := by
  have hstart : (DeclarationState.start doc).Extends [] (DeclarationState.start doc) :=
    (sound_start doc).extends_of_same rfl rfl
  have harrived := @Walk.arrive_of_keeps _ (declarationWalk doc)
    (fun before => ∃ added, (DeclarationState.start doc).Extends added before) layers part _
    ⟨[], hstart⟩ (by
      rintro layer inner hinner before ⟨added, hbefore⟩
      have hkind := hplain layer (hinner.subset List.mem_cons_self)
      exact ⟨_, hbefore.trans
        (extends_enterDeclaration hbefore.sound (declaredKind?_eq_none hkind _))⟩) (by
      rintro sibling - before ⟨added, hbefore⟩
      exact ⟨_, hbefore.trans
        ((declarationWalk_relates_mirrored doc).run sibling before hbefore.sound)⟩)
  obtain ⟨added, hextends⟩ := harrived
  have hlength := hextends.stack.sameHeads.length_eq
  rw [DeclarationState.stack, DeclarationState.stack, List.length_append, List.length_append]
    at hlength
  exact List.eq_nil_of_length_eq_zero (Nat.add_right_cancel hlength).symm

end

/-! ## Where symbols start that are brought before a place -/

section

open SymbolIndex.Symbol

variable {layers : List Layer} {part : Tree} {leaf : Token} {symbol : Symbol}
  (hlaid : SourceText.LaidOut doc.text (wrap layers part).tokens) (hleaf : leaf ∈ part.tokens)
include hlaid hleaf

/-- What is brought before a token starts before it. -/
theorem startsBy_of_earlier {kind : PhraseKind} {children : List Tree} {before : DeclarationState}
    (hphrase : .phrase kind children ∈ partsAll (earlierIn layers))
    (hmem : symbol ∈ broughtBy doc before kind (.phrase kind children)) :
    symbol.startsBy (doc.tokenRange leaf).start = true := by
  cases stands_of_mem_broughtBy hmem with
  | phrase hlocation =>
      exact (startsBy_iff hlocation).2 (hlaid.treeRange_start_le hleaf hphrase)
  | element element _ helement hlocation =>
      exact (startsBy_iff hlocation).2
        (hlaid.treeRange_start_le hleaf (mem_partsAll_trans _ hphrase helement))
  | target target htarget hlocation =>
      have htoken := (tokens_sublist_of_mem_partsAll _ hphrase).subset
        (targetTokens_subset _ htarget)
      exact (startsBy_iff hlocation).2 (hlaid.positionAt_start_le hleaf htoken)

/-- Of those that a phrase around the place brings, only variables may start behind it. -/
theorem startsBy_of_around (hsolid : leaf.kind.isTrivia = false) {layer : Layer}
    {inner : List Layer} {before : DeclarationState} (hinner : layer :: inner <:+ layers)
    (hdescends : descendsForDeclarations layer.kind = true)
    (hmem : symbol ∈ broughtBy doc before layer.kind (wrap (layer :: inner) part)) :
    symbol.startsBy (doc.tokenRange leaf).start = true ∨
      ∃ target ∈ targetTokens (wrap (layer :: inner) part),
        symbol.location = tokenLocation doc target := by
  obtain ⟨outer, rfl⟩ := hinner
  rw [wrap_append] at hlaid
  have haround := hlaid.part (self_mem_parts_wrap outer _)
  have hheld : leaf ∈ (wrap (layer :: inner) part).solidTokens := by
    refine mem_solidTokens ?_ hsolid
    rw [tokens_wrap]
    exact List.mem_append_right _ (List.mem_append_left _ hleaf)
  rw [wrap] at hmem
  cases stands_of_mem_broughtBy hmem with
  | phrase hlocation =>
      have hrange := Range.containsRange_iff.1 (haround.containsRange_treeRange hheld)
      exact Or.inl ((startsBy_iff hlocation).2 hrange.1)
  | element _ hpasses _ _ =>
      rw [hdescends] at hpasses
      cases hpasses
  | target target htarget hlocation => exact Or.inr ⟨target, htarget, hlocation⟩

end

end SymbolIndex.Reading
