import SymbolIndex.Proofs.Reading.Arrivals
import SymbolIndex.Proofs.Reading.Building
import SymbolIndex.Proofs.Reading.Origins
import SymbolIndex.Reading.Uses
import SymbolIndex.Tree.Snippet

/-!
# Finding the symbol of a declaration

The walk over uses gets the table, not the symbols that the other walk had open.
So at a declaration it looks for the first symbol with the range of the phrase and
a kind that fits.  Ranges tell declarations apart that start with tokens of their
own: all that the table lists before the symbol of a declaration is read from
trees that start elsewhere, or from comments.
-/

namespace SymbolIndex

namespace Reading

open SymbolIndex.Symbol SymbolIndex.Tree

variable {doc : Document}

/-! ## The order of the table -/

/-- The symbols that have been declared, in the order of the table: those at the root, and those
below the open symbols, outermost first. -/
def DeclarationState.gathered (state : DeclarationState) : List Symbol :=
  state.root.children ++ state.opened.reverse.flatMap (·.children)

/-- A child goes behind those that are there, or nowhere. -/
theorem exists_children_withChild (owner child : Symbol) : ∃ added,
    (DeclarationState.withChild owner child).children = owner.children ++ added ∧
      (child.kind ≠ .localVariable → added = [child]) := by
  rw [DeclarationState.withChild]
  split
  · rename_i hknown
    refine ⟨[], by simp, fun hother => ?_⟩
    have hlocal := (Bool.and_eq_true_iff.1 hknown).1
    exact absurd (beq_iff_eq.1 hlocal) hother
  · exact ⟨[child], rfl, fun _ => rfl⟩

/-- A child comes last, whether it is added to an open symbol or to the root. -/
theorem exists_gathered_addChild (state : DeclarationState) (child : Symbol) : ∃ added,
    (state.addChild child).gathered = state.gathered ++ added ∧
      (child.kind ≠ .localVariable → added = [child]) := by
  rw [DeclarationState.addChild, DeclarationState.gathered, DeclarationState.gathered]
  split
  · rename_i hopened
    obtain ⟨added, hchildren, hall⟩ := exists_children_withChild state.root child
    exact ⟨added, by simp [hopened, hchildren], hall⟩
  · rename_i top rest hopened
    obtain ⟨added, hchildren, hall⟩ := exists_children_withChild top child
    exact ⟨added, by simp [hopened, hchildren], hall⟩

/-- A scope that is declared comes last in the order of the table. -/
theorem gathered_addChild (state : DeclarationState) {child : Symbol}
    (hscope : child.kind.isScope = true) :
    (state.addChild child).gathered = state.gathered ++ [child] := by
  obtain ⟨added, hgathered, hall⟩ := exists_gathered_addChild state child
  rw [hgathered, hall]
  rintro hlocal
  rw [hlocal] at hscope
  cases hscope

theorem symbols_ofDocument (doc : Document) :
    (SymbolTable.ofDocument doc).symbols =
      preorderAll ((declarationWalk doc).run doc.tree (DeclarationState.start doc)).gathered := by
  rw [SymbolTable.symbols, root_ofDocument, DeclarationState.gathered, opened_run]
  simp

/-! ## The first symbol that passes a test -/

/-- A test for scopes that does not look at what may change while a symbol is open. -/
structure TestsHead (p : Symbol → Bool) : Prop where
  head : ∀ before after : Symbol, before.SameHead after → p after = p before
  scope : ∀ symbol, p symbol = true → symbol.kind.isScope = true

/-- The symbol is the first of those declared that passes the test, and none that is open does. -/
structure Finds (p : Symbol → Bool) (symbol : Symbol) (state : DeclarationState) : Prop where
  opened : ∀ owner ∈ state.opened, p owner = false ∧ owner.kind.isScope = true
  found : (preorderAll state.gathered).find? p = some symbol

section

variable {p : Symbol → Bool} {symbol : Symbol} {state : DeclarationState}

theorem find?_preorderAll_append (p : Symbol → Bool) (left right : List Symbol) :
    (preorderAll (left ++ right)).find? p =
      ((preorderAll left).find? p).or ((preorderAll right).find? p) := by
  rw [preorderAll_append, List.find?_append]

theorem find?_preorderAll_singleton {owner : Symbol} (hfails : p owner = false) :
    (preorderAll [owner]).find? p = (preorderAll owner.children).find? p := by
  rw [preorderAll, preorder_eq]
  simp [preorderAll, hfails]

theorem additive_passed (htests : TestsHead p) :
    Additive fun state => ∀ owner ∈ state.opened, p owner = false ∧ owner.kind.isScope = true :=
  additive_opened fun before after hhead hpassed => by rwa [htests.head _ _ hhead, hhead.kind]

theorem find?_preorderAll_mark (htests : TestsHead p) {mark : Symbol}
    (hkind : mark.kind = .namespaceMark) (hnone : mark.children = []) :
    (preorderAll [mark]).find? p = none := by
  have hfails : p mark = false := by
    rw [← Bool.not_eq_true]
    intro hpasses
    have hscope := htests.scope mark hpasses
    rw [hkind] at hscope
    cases hscope
  rw [find?_preorderAll_singleton hfails, hnone]
  rfl

/-- Whatever is added, the first symbol that passes the test stays the first. -/
theorem additive_finds (htests : TestsHead p) (symbol : Symbol) : Additive (Finds p symbol) where
  congr state other hroot hopened hfinds := by
    have hgathered : other.gathered = state.gathered := by
      rw [DeclarationState.gathered, DeclarationState.gathered, hroot, hopened]
    exact ⟨hopened ▸ hfinds.opened, hgathered ▸ hfinds.found⟩
  child state child hfinds := by
    obtain ⟨added, hgathered, -⟩ := exists_gathered_addChild state child
    refine ⟨(additive_passed htests).child state child hfinds.opened, ?_⟩
    rw [hgathered, find?_preorderAll_append, hfinds.found]
    rfl
  mark state mark hkind hnone hfinds := by
    have hfound := hfinds.found
    rw [DeclarationState.gathered, find?_preorderAll_append] at hfound
    refine ⟨hfinds.opened, ?_⟩
    rw [DeclarationState.gathered, find?_preorderAll_append, find?_preorderAll_append,
      find?_preorderAll_mark htests hkind hnone, Option.or_none]
    exact hfound
  traits state top rest associated hopened hfinds := by
    refine ⟨(additive_passed htests).traits state top rest associated hopened hfinds.opened, ?_⟩
    have hfound := hfinds.found
    rw [DeclarationState.gathered, hopened] at hfound
    rw [← hfound, DeclarationState.gathered]
    simp

/-- A symbol is listed before those below it, where it is open as well as where it is closed. -/
theorem Finds.close (htests : TestsHead p) (hfinds : Finds p symbol state) :
    Finds p symbol state.closeSymbol := by
  rw [DeclarationState.closeSymbol]
  split
  · exact hfinds
  · rename_i top rest hopened
    have hpassed := hfinds.opened
    rw [hopened] at hpassed
    obtain ⟨htop, hrest⟩ := List.forall_mem_cons.1 hpassed
    constructor
    · exact (additive_passed htests).child _ top hrest
    · calc (preorderAll ({ state with opened := rest }.addChild top).gathered).find? p
        _ = (preorderAll ({ state with opened := rest }.gathered ++ [top])).find? p := by
          rw [gathered_addChild _ htop.2]
        _ = (preorderAll ({ state with opened := rest }.gathered ++ top.children)).find? p := by
          rw [find?_preorderAll_append, find?_preorderAll_append,
            find?_preorderAll_singleton htop.1]
        _ = (preorderAll state.gathered).find? p := by
          simp [DeclarationState.gathered, hopened]
        _ = some symbol := hfinds.found

/-- A declaration that does not pass the test may be opened. -/
theorem Finds.opens {opened : Symbol} {entered : DeclarationState} (hfinds : Finds p symbol state)
    (hroot : entered.root = state.root) (hopened : entered.opened = opened :: state.opened)
    (hfails : p opened = false) (hscope : opened.kind.isScope = true) :
    Finds p symbol entered where
  opened := by
    rw [hopened]
    exact List.forall_mem_cons.2 ⟨⟨hfails, hscope⟩, hfinds.opened⟩
  found := by
    have hgathered : entered.gathered = state.gathered ++ opened.children := by
      simp [DeclarationState.gathered, hroot, hopened]
    rw [hgathered, find?_preorderAll_append, hfinds.found]
    rfl

/-- Leaving a phrase does not change which symbol passes the test first. -/
theorem Finds.leave (htests : TestsHead p) (hfinds : Finds p symbol state) (kind : PhraseKind)
    (tree : Tree) : Finds p symbol (leaveDeclaration kind tree state) := by
  have hadditive := additive_finds htests symbol
  cases hdeclares : declaresScope kind with
  | false => exact hadditive.leave hdeclares hfinds
  | true =>
      obtain ⟨hroot, hopened⟩ := @leave_of_declaresScope kind tree state hdeclares
      exact hadditive.congr _ _ hroot hopened (hfinds.close htests)

/-- What is found stays found on the way through trees that declare nothing else of the kind. -/
theorem Finds.run (htests : TestsHead p) {tree : Tree} (hfinds : Finds p symbol state)
    (hothers : ∀ kind children other, .phrase kind children ∈ tree.parts →
      other.location = locationOf doc (.phrase kind children) → p other = false) :
    Finds p symbol ((declarationWalk doc).run tree state) := by
  have hadditive := additive_finds htests symbol
  apply Walk.KeepsAt.run tree state _ hfinds
  constructor
  · intro leaf before _ hbefore
    exact hadditive.token hbefore leaf
  · intro kind children before hvisits hbefore
    cases hdeclares : declaresScope kind with
    | false => exact hadditive.enter hdeclares hbefore
    | true =>
        obtain ⟨opened, hmirrors, hroot, hopened⟩ :=
          @exists_opened_enter doc kind (.phrase kind children) before hdeclares
        apply hbefore.opens hroot hopened
        · exact hothers kind children opened hvisits.mem_parts hmirrors.location
        · exact hmirrors.opens.isScope
  · intro kind children before _ hbefore
    exact hbefore.leave htests kind _

end

/-! ## What stands before a declaration -/

/-- The first token of a declaration is not one of a declaration inside of it. -/
def OwnsFirst (tree : Tree) : Prop :=
  ∃ first ∈ tree.firstToken?, ∀ inner ∈ partsAll tree.children,
    inner.phraseKind?.any declaresScope = true → first ∉ inner.tokens

instance (tree : Tree) : Decidable (OwnsFirst tree) :=
  inferInstanceAs (Decidable (∃ first ∈ tree.firstToken?, ∀ inner ∈ partsAll tree.children,
    inner.phraseKind?.any declaresScope = true → first ∉ inner.tokens))

/-- The tokens stand one after the other in the text, and each declaration starts with one of its
own. -/
structure DeclarationsApart (doc : Document) : Prop where
  laid : SourceText.LaidOut doc.text doc.tree.tokens
  owns : ∀ part ∈ doc.tree.parts, part.phraseKind?.any declaresScope = true → OwnsFirst part

/-- What is looked for at a declaration: a symbol with its range, of the kinds that it may have. -/
def fitsDeclaration (doc : Document) (kind : PhraseKind) (tree : Tree) (symbol : Symbol) : Bool :=
  (if declaresFunction kind then isFunctionKind symbol.kind else symbol.kind.isClassLike) &&
    symbol.range? == some (doc.treeRange tree)

/-- Whether a symbol fits a declaration does not change while it is open. -/
theorem testsHead_fitsDeclaration (doc : Document) (kind : PhraseKind) (tree : Tree) :
    TestsHead (fitsDeclaration doc kind tree) where
  head before after hhead := by
    rw [fitsDeclaration, fitsDeclaration, range?, range?, hhead.kind, hhead.location]
  scope symbol hfits := by
    have hkind := (Bool.and_eq_true_iff.1 hfits).1
    split at hkind
    all_goals
      revert hkind
      cases symbol.kind
      all_goals decide

/-- The symbol of a declaration fits it. -/
theorem fitsDeclaration_of_declaredKind? {kind : PhraseKind} {tree : Tree} {symbol : Symbol}
    {name : String} (hdeclares : declaresScope kind = true)
    (hdeclared : declaredKind? kind name = some symbol.kind)
    (hlocation : symbol.location = locationOf doc tree) :
    fitsDeclaration doc kind tree symbol = true := by
  have hrange : (symbol.range? == some (doc.treeRange tree)) = true := by
    rw [range?, hlocation]
    exact beq_self_eq_true _
  have hkind : (if declaresFunction kind then isFunctionKind symbol.kind
      else symbol.kind.isClassLike) = true := by
    cases kind
    case methodDeclaration =>
      have hmethod : methodKind name = symbol.kind := Option.some.inj hdeclared
      rw [← hmethod]
      rcases methodKind_cases name with heq | heq
      · rw [heq]
        rfl
      · rw [heq]
        rfl
    case functionDeclaration | anonymousFunctionCreationExpression | classDeclaration |
        interfaceDeclaration | traitDeclaration =>
      rw [← Option.some.inj hdeclared]
      rfl
    all_goals cases hdeclares
  rw [fitsDeclaration, hkind, hrange]
  rfl

section

variable (hapart : DeclarationsApart doc) {part tree : Tree} {leaf : Token} {kind : PhraseKind}
  {symbol : Symbol} (hpart : part ∈ doc.tree.parts) (hfirst : part.firstToken? = some leaf)
  (hfits : fitsDeclaration doc kind part symbol = true)
include hapart hpart hfirst hfits

theorem firstToken?_of_fitsDeclaration (htree : tree ∈ doc.tree.parts)
    (hlocation : symbol.location = locationOf doc tree) : tree.firstToken? = some leaf := by
  apply hapart.laid.firstToken?_of_treeRange hpart htree hfirst
  have hrange := beq_iff_eq.1 (Bool.and_eq_true_iff.1 hfits).2
  rw [range?, hlocation] at hrange
  exact Option.some.inj hrange

/-- A scope with the range of a part was read from a declaration that starts with the same token,
or from a use declaration that has this token. -/
theorem declares_or_isUse_of_fits (htree : tree ∈ doc.tree.parts)
    (horigin : ScopeOrigin doc tree symbol) :
    (tree.phraseKind?.any declaresScope = true ∧ tree.firstToken? = some leaf) ∨
      (tree.isPhrase .namespaceUseDeclaration = true ∧ leaf ∈ tree.tokens) := by
  cases horigin with
  | declaration _ hdeclares hlocation =>
      exact Or.inl ⟨hdeclares,
        firstToken?_of_fitsDeclaration hapart hpart hfirst hfits htree hlocation⟩
  | clause clause huse hclause _ hlocation =>
      have hmem := mem_parts_trans _ htree hclause
      have hstarts := firstToken?_of_fitsDeclaration hapart hpart hfirst hfits hmem hlocation
      have hheld := (tokens_of_mem_solidTokens (List.mem_of_head? hstarts)).1
      exact Or.inr ⟨huse, (tokens_sublist_of_mem_parts tree hclause).subset hheld⟩
  | comment comment hmem hkind hlocation =>
      -- The comment would be the first token of the part, but comments do not bound parts.
      obtain ⟨htoken, hsolid⟩ := tokens_of_mem_solidTokens (List.mem_of_head? hfirst)
      have hheld := (tokens_sublist_of_mem_parts doc.tree hpart).subset htoken
      have hrange := beq_iff_eq.1 (Bool.and_eq_true_iff.1 hfits).2
      rw [range?, hlocation] at hrange
      have hstart := congrArg Range.start (Option.some.inj hrange)
      obtain ⟨first, _, _, later, hfirsts, -, htreeRange⟩ :=
        @SourceText.exists_treeRange doc.text part
          (List.ne_nil_of_mem (List.mem_of_head? hfirst))
      have hsame : first = leaf := by
        rw [firstToken?, hfirsts] at hfirst
        exact Option.some.inj hfirst
      rw [Document.treeRange, htreeRange, hsame] at hstart
      rw [← hapart.laid.eq_of_positionAt_start hmem hheld hstart, hkind] at hsolid
      cases hsolid

end

/-! ## States in which nothing fits -/

/-- Nothing that has been declared fits the part, and if a comment waits it is one of the
document. -/
structure NoneFits (doc : Document) (kind : PhraseKind) (part : Tree) (state : DeclarationState) :
    Prop where
  holds : HoldsComment doc state
  all : state.All [] fun symbol =>
    ∀ below ∈ symbol.preorder, fitsDeclaration doc kind part below = false

theorem lasting_not_fits (doc : Document) (kind : PhraseKind) (part : Tree) :
    Lasting fun symbol => ∀ below ∈ symbol.preorder, fitsDeclaration doc kind part below = false :=
  lasting_preorder fun owner children associated howner => by
    rwa [(testsHead_fitsDeclaration doc kind part).head owner
      { owner with children := children, associated := associated } ⟨rfl, rfl, rfl, rfl, rfl⟩]

namespace NoneFits

variable {kind : PhraseKind} {part : Tree} {state : DeclarationState}

theorem start (doc : Document) (kind : PhraseKind) (part : Tree) :
    NoneFits doc kind part (DeclarationState.start doc) :=
  ⟨holdsComment_start doc, DeclarationState.All.start _ doc⟩

variable (hnone : NoneFits doc kind part state)
include hnone

theorem token {leaf : Token} (hmem : leaf ∈ doc.tree.tokens) :
    NoneFits doc kind part (declarationToken doc leaf state) :=
  ⟨hnone.holds.token hmem, hnone.all.token leaf⟩

/-- Entering a phrase of which nothing fits brings nothing that does. -/
theorem enter {inner : PhraseKind} {children : List Tree}
    (hmisses : ∀ symbol, ScopeOrigin doc (.phrase inner children) symbol →
      fitsDeclaration doc kind part symbol = false) :
    NoneFits doc kind part (enterDeclaration doc inner (.phrase inner children) state) := by
  refine ⟨hnone.holds.enter _ _, hnone.all.enter (lasting_not_fits doc kind part) ?_⟩
  intro symbol hbrought below hbelow
  have horigin := origins_of_mem_broughtBy hnone.holds symbol hbrought below hbelow
  rw [← Bool.not_eq_true]
  intro hfits
  have hscope := (testsHead_fitsDeclaration doc kind part).scope below hfits
  exact absurd hfits (Bool.eq_false_iff.1 (hmisses below (horigin hscope)))

theorem leave (inner : PhraseKind) (tree : Tree) :
    NoneFits doc kind part (leaveDeclaration inner tree state) :=
  ⟨hnone.holds.leave inner tree, hnone.all.leave (lasting_not_fits doc kind part) inner tree⟩

/-- Nothing that fits comes from a tree of whose phrases nothing does. -/
theorem run {tree : Tree} (htokens : tree.tokens ⊆ doc.tree.tokens)
    (hmisses : ∀ inner children, .phrase inner children ∈ tree.parts → ∀ symbol,
      ScopeOrigin doc (.phrase inner children) symbol →
      fitsDeclaration doc kind part symbol = false) :
    NoneFits doc kind part ((declarationWalk doc).run tree state) := by
  refine Walk.KeepsAt.run tree state ⟨?_, ?_, ?_⟩ hnone
  · intro leaf before hvisits hbefore
    have hmem := (tokens_sublist_of_mem_parts tree hvisits.mem_parts).subset List.mem_cons_self
    exact hbefore.token (htokens hmem)
  · intro inner children before hvisits hbefore
    exact hbefore.enter (hmisses inner children hvisits.mem_parts)
  · intro inner children before _ hbefore
    exact hbefore.leave inner _

end NoneFits

/-! ## Arriving at a declaration, and going on -/

section

variable (hapart : DeclarationsApart doc) {part : Tree} {leaf : Token} {kind : PhraseKind}
  {layers : List Layer} (htree : doc.tree = wrap layers part)
  (hfirst : part.firstToken? = some leaf)
include hapart htree hfirst

/-- The first token of a part stands in no tree beside the part. -/
theorem not_mem_tokens_beside {other : Tree}
    (hother : other ∈ partsAll (earlierIn layers) ∨ other ∈ partsAll (laterIn layers)) :
    leaf ∉ other.tokens := by
  intro hmem
  have hnodup := hapart.laid.nodup
  rw [htree, tokens_wrap] at hnodup
  obtain ⟨-, hinner, hearlier⟩ := List.nodup_append.1 hnodup
  obtain ⟨-, -, hlater⟩ := List.nodup_append.1 hinner
  have hheld := (tokens_of_mem_solidTokens (List.mem_of_head? hfirst)).1
  rcases hother with hbefore | hbehind
  · have htoken := (tokens_sublist_of_mem_partsAll _ hbefore).subset hmem
    exact hearlier leaf htoken leaf (List.mem_append_left _ hheld) rfl
  · have htoken := (tokens_sublist_of_mem_partsAll _ hbehind).subset hmem
    exact hlater leaf hheld leaf htoken rfl

/-- Nothing from beside a declaration fits it. -/
theorem not_fits_of_beside {tree : Tree} {symbol : Symbol}
    (hbeside : tree ∈ partsAll (earlierIn layers) ∨ tree ∈ partsAll (laterIn layers))
    (horigin : ScopeOrigin doc tree symbol) : fitsDeclaration doc kind part symbol = false := by
  rw [← Bool.not_eq_true]
  intro hfits
  have hpart : part ∈ doc.tree.parts := htree ▸ self_mem_parts_wrap layers part
  have hmem : tree ∈ doc.tree.parts := by
    rw [htree]
    rcases hbeside with hearlier | hlater
    · exact mem_parts_wrap_of_earlier hearlier
    · exact mem_parts_wrap_of_later hlater
  apply not_mem_tokens_beside hapart htree hfirst hbeside
  rcases declares_or_isUse_of_fits hapart hpart hfirst hfits hmem horigin with hdeclares | huse
  · exact (tokens_of_mem_solidTokens (List.mem_of_head? hdeclares.2)).1
  · exact huse.2

variable (hdescends : ∀ layer ∈ layers, descendsForDeclarations layer.kind = true)
  (hdeclares : part.phraseKind?.any declaresScope = true)
include hdescends hdeclares

/-- A declaration around the part starts with a token of its own, and use declarations are not
gone below. -/
theorem not_fits_of_around {layer : Layer} {inner : List Layer} {symbol : Symbol}
    (hinner : layer :: inner <:+ layers)
    (horigin : ScopeOrigin doc (wrap (layer :: inner) part) symbol) :
    fitsDeclaration doc kind part symbol = false := by
  rw [← Bool.not_eq_true]
  intro hfits
  have hpart : part ∈ doc.tree.parts := htree ▸ self_mem_parts_wrap layers part
  have haround := wrap_mem_parts htree hinner
  rcases declares_or_isUse_of_fits hapart hpart hfirst hfits haround horigin with
    ⟨houter, hstarts⟩ | ⟨huse, -⟩
  · obtain ⟨first, hown, hapartInside⟩ := hapart.owns _ haround houter
    obtain rfl := Option.some.inj (hown.symm.trans hstarts)
    refine hapartInside part ?_ hdeclares
      (tokens_of_mem_solidTokens (List.mem_of_head? hfirst)).1
    exact mem_partsAll_iff.2
      ⟨_, List.mem_append_right _ List.mem_cons_self, self_mem_parts_wrap inner part⟩
  · have hlayer := hdescends layer (hinner.subset List.mem_cons_self)
    have hkind : layer.kind = .namespaceUseDeclaration := Option.some.inj (beq_iff_eq.1 huse)
    rw [hkind] at hlayer
    cases hlayer

/-- Where the walk arrives at a declaration, nothing that was declared before fits it. -/
theorem noneFits_arrive :
    NoneFits doc kind part
      ((declarationWalk doc).arrive layers part (DeclarationState.start doc)) := by
  apply Walk.arrive_of_keeps (NoneFits.start doc kind part)
  · intro layer inner hinner before hbefore
    apply hbefore.enter
    intro symbol horigin
    exact not_fits_of_around hapart htree hfirst hdescends hdeclares hinner horigin
  · intro sibling hsibling before hbefore
    have hparts : ∀ {other : Tree}, other ∈ sibling.parts → other ∈ partsAll (earlierIn layers) :=
      fun hmem => mem_partsAll_iff.2 ⟨sibling, hsibling, hmem⟩
    have hmem : sibling ∈ doc.tree.parts :=
      htree ▸ mem_parts_wrap_of_earlier (hparts (self_mem_parts sibling))
    apply hbefore.run (tokens_sublist_of_mem_parts doc.tree hmem).subset
    intro inner children hbelow symbol horigin
    exact not_fits_of_beside hapart htree hfirst (Or.inl (hparts hbelow)) horigin

end

section

variable {kind : PhraseKind} {children : List Tree} {before around : DeclarationState}
  {symbol : Symbol} (hnone : NoneFits doc kind (.phrase kind children) before)
  (hadds : Adds doc kind children before around symbol)
include hnone hadds

/-- Nothing that comes before the declaration in the order of the table fits it. -/
theorem not_fits_of_mem_gathered : ∀ below ∈ preorderAll around.gathered,
    fitsDeclaration doc kind (.phrase kind children) below = false := by
  intro below hbelow
  obtain ⟨child, hchild, hpreorder⟩ := mem_preorderAll_iff.1 hbelow
  obtain ⟨marks, hroot, hmarks⟩ := hadds.marked
  rw [DeclarationState.gathered, hroot, hadds.opened, List.append_assoc, List.mem_append,
    List.mem_append] at hchild
  rcases hchild with hbase | hmark | hopen
  · exact hnone.all.root_children child hbase below hpreorder
  · obtain ⟨hkind, hleaf⟩ := hmarks child hmark
    have hfound := find?_preorderAll_mark
      (testsHead_fitsDeclaration doc kind (.phrase kind children)) hkind hleaf
    have hmem : below ∈ preorderAll [child] := by simpa [preorderAll] using hpreorder
    exact Bool.eq_false_iff.2 (List.find?_eq_none.1 hfound below hmem)
  · obtain ⟨owner, howner, howned⟩ := List.mem_flatMap.1 hopen
    apply hnone.all.opened owner (List.mem_reverse.1 howner) below
    exact mem_preorder_iff.2 (Or.inr (mem_preorderAll_iff.2 ⟨child, howned, hpreorder⟩))

/-- Behind a declaration its symbol is the first that fits it. -/
theorem finds_of_adds (hdeclares : declaresScope kind = true)
    (hscopes : ∀ owner ∈ before.opened, owner.kind.isScope = true) :
    Finds (fitsDeclaration doc kind (.phrase kind children)) symbol
      ((declarationWalk doc).run (.phrase kind children) before) := by
  have htests := testsHead_fitsDeclaration doc kind (.phrase kind children)
  have hfits : fitsDeclaration doc kind (.phrase kind children) symbol = true :=
    fitsDeclaration_of_declaredKind? hdeclares hadds.declared hadds.location
  constructor
  · rw [hadds.opened_run]
    apply (additive_passed htests).child around symbol
    rw [hadds.opened]
    intro owner howner
    have hself := hnone.all.opened owner howner owner (mem_preorder_iff.2 (Or.inl rfl))
    exact ⟨hself, hscopes owner howner⟩
  · have hgathered : ((declarationWalk doc).run (.phrase kind children) before).gathered =
        around.gathered ++ [symbol] := by
      rw [← gathered_addChild around (htests.scope symbol hfits), DeclarationState.gathered,
        DeclarationState.gathered, hadds.root_run, hadds.opened_run]
    have hearlier : (preorderAll around.gathered).find?
        (fitsDeclaration doc kind (.phrase kind children)) = none := by
      apply List.find?_eq_none.2
      intro below hbelow
      exact Bool.eq_false_iff.1 (not_fits_of_mem_gathered hnone hadds below hbelow)
    rw [hgathered, find?_preorderAll_append, hearlier, preorderAll, preorder_eq,
      List.cons_append, List.find?_cons_of_pos hfits, Option.none_or]

end

/-- The first symbol of the table that fits a declaration to which the walk comes is the one that
was built from it. -/
theorem exists_find?_eq_builtFrom (hapart : DeclarationsApart doc) {kind : PhraseKind}
    {children : List Tree} {before : DeclarationState} (hdeclares : declaresScope kind = true)
    (hvisits : (declarationWalk doc).Visits doc.tree (DeclarationState.start doc)
      (.phrase kind children) before) :
    ∃ symbol, builtFrom? doc kind children before = some symbol ∧
      symbol.location = locationOf doc (.phrase kind children) ∧
      (SymbolTable.ofDocument doc).find? (fitsDeclaration doc kind (.phrase kind children)) =
        some symbol := by
  have htests := testsHead_fitsDeclaration doc kind (.phrase kind children)
  obtain ⟨leaf, hfirst, -⟩ := hapart.owns _ hvisits.mem_parts hdeclares
  obtain ⟨around, symbol, hadds⟩ := @exists_adds doc kind hdeclares children before
  have hscopes := isScope_of_mem_opened hvisits
  obtain ⟨layers, htree, hdescends, hbefore⟩ := Walk.exists_layers_of_visits hvisits
  have hnone : NoneFits doc kind (.phrase kind children) before :=
    hbefore ▸ noneFits_arrive hapart htree hfirst hdescends hdeclares
  have hleft := finds_of_adds hnone hadds hdeclares hscopes
  rw [hbefore] at hleft
  have hend := Walk.run_wrap_of_keeps hdescends hleft (by
      intro sibling hsibling state hstate
      apply hstate.run htests
      intro inner trees other hmem hlocation
      have hlater := mem_partsAll_iff.2 ⟨sibling, hsibling, hmem⟩
      rw [← Bool.not_eq_true]
      intro hother
      have hstarts := firstToken?_of_fitsDeclaration hapart hvisits.mem_parts hfirst hother
        (htree ▸ mem_parts_wrap_of_later hlater) hlocation
      exact not_mem_tokens_beside hapart htree hfirst (Or.inr hlater)
        (tokens_of_mem_solidTokens (List.mem_of_head? hstarts)).1)
    fun inner tree state hstate => hstate.leave htests inner tree
  rw [← htree] at hend
  refine ⟨symbol, hadds.built, hadds.location, ?_⟩
  rw [SymbolTable.find?, symbols_ofDocument]
  exact hend.found

/-- Where the walk over uses enters a declaration, the symbol that it finds is put in front of the
declarations around. -/
theorem contexts_enterUse {table : SymbolTable} {kind : PhraseKind} {tree : Tree} {symbol : Symbol}
    (hdeclares : declaresScope kind = true)
    (hfind : table.find? (fitsDeclaration doc kind tree) = some symbol) (source : SymbolSource)
    (around : UseState) :
    (enterUse doc table source kind tree around).contexts = symbol :: around.contexts := by
  have hclass : kind = .classDeclaration ∨ kind = .interfaceDeclaration ∨
      kind = .traitDeclaration → classFrom doc table tree = symbol := by
    rintro (rfl | rfl | rfl)
    all_goals
      rw [classFrom]
      exact congrArg (Option.getD · _) hfind
  have hfunction : declaresFunction kind = true → functionFrom doc table tree = symbol := by
    intro hfunction
    have hsame : (fun other : Symbol => isFunctionKind other.kind &&
        other.range? == some (doc.treeRange tree)) = fitsDeclaration doc kind tree := by
      funext other
      rw [fitsDeclaration, if_pos hfunction]
    rw [functionFrom, hsame, hfind, Option.getD_some]
  cases kind
  case classDeclaration =>
    exact congrArg (· :: around.contexts) (hclass (Or.inl rfl))
  case interfaceDeclaration =>
    exact congrArg (· :: around.contexts) (hclass (Or.inr (Or.inl rfl)))
  case traitDeclaration =>
    exact congrArg (· :: around.contexts) (hclass (Or.inr (Or.inr rfl)))
  case functionDeclaration | methodDeclaration | anonymousFunctionCreationExpression =>
    exact congrArg (· :: around.contexts) (hfunction rfl)
  all_goals cases hdeclares

end Reading

open Reading in
/-- Where declarations start with tokens of their own, the two walks agree on which
symbol a declaration is: the walk over uses enters it with the symbol that the walk
over declarations has built from it, in whatever state it comes there. -/
theorem SymbolTable.enterUse_with_builtFrom {doc : Document} (hapart : DeclarationsApart doc)
    {kind : PhraseKind} {children : List Tree} {before : DeclarationState}
    (hdeclares : declaresScope kind = true)
    (hvisits : (declarationWalk doc).Visits doc.tree (DeclarationState.start doc)
      (.phrase kind children) before) :
    ∃ symbol, builtFrom? doc kind children before = some symbol ∧
      symbol.location = locationOf doc (.phrase kind children) ∧
      (ofDocument doc).find? (fitsDeclaration doc kind (.phrase kind children)) = some symbol ∧
      ∀ source around,
        (enterUse doc (ofDocument doc) source kind (.phrase kind children) around).contexts =
          symbol :: around.contexts := by
  obtain ⟨symbol, hbuilt, hlocation, hfind⟩ := exists_find?_eq_builtFrom hapart hdeclares hvisits
  exact ⟨symbol, hbuilt, hlocation, hfind, contexts_enterUse hdeclares hfind⟩

/-- A class whose comment declares a method, and a method that returns a closure. -/
def closuresDocument : Document :=
  Snippet.document "a"
    "<?php /** @method int m() */ class A { function f() { return function () {}; } }"
    [Snippet.docComment "/** @method int m() */",
      Snippet.classDeclaration [] "A" none []
        [Snippet.method [] "f" [] none
          [Snippet.returnStatement (Snippet.closure false [] [] [])]]]

open Reading in
/-- For the class, its method and the closure the search gives the symbols that were built from
them. -/
theorem SymbolTable.enterUse_with_builtFrom_closures :
    DeclarationsApart closuresDocument ∧
      (ofDocument closuresDocument).symbols.map (·.name) = ["A", "m", "f", closureName] ∧
      ∀ kind ∈ [PhraseKind.classDeclaration, .methodDeclaration,
        .anonymousFunctionCreationExpression], declaresScope kind = true ∧
        ∃ children before, (declarationWalk closuresDocument).Visits closuresDocument.tree
          (DeclarationState.start closuresDocument) (.phrase kind children) before ∧
        ∃ symbol, builtFrom? closuresDocument kind children before = some symbol ∧
          symbol.location = locationOf closuresDocument (.phrase kind children) ∧
          (ofDocument closuresDocument).find?
            (fitsDeclaration closuresDocument kind (.phrase kind children)) = some symbol ∧
          ∀ source around, (enterUse closuresDocument (ofDocument closuresDocument) source kind
            (.phrase kind children) around).contexts = symbol :: around.contexts := by
  have hapart : DeclarationsApart closuresDocument := ⟨by decide +kernel, by decide +kernel⟩
  refine ⟨hapart, by decide +kernel, ?_⟩
  intro kind hkind
  have hfound : ∀ kind ∈ [PhraseKind.classDeclaration, .methodDeclaration,
      .anonymousFunctionCreationExpression], declaresScope kind = true ∧
      ∃ visit ∈ (declarationWalk closuresDocument).visited closuresDocument.tree
        (DeclarationState.start closuresDocument), visit.1.phraseKind? = some kind := by
    decide +kernel
  obtain ⟨hdeclares, ⟨part, before⟩, hmem, hpart⟩ := hfound kind hkind
  have hvisits := Walk.visits_of_mem_visited _ hmem
  cases part with
  | token _ => cases hpart
  | phrase other children =>
      obtain rfl := Option.some.inj hpart
      exact ⟨hdeclares, children, before, hvisits,
        enterUse_with_builtFrom hapart hdeclares hvisits⟩

end SymbolIndex
