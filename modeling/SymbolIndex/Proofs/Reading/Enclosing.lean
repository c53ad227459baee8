import SymbolIndex.Proofs.Reading.Emissions
import SymbolIndex.Proofs.Reading.Origins
import SymbolIndex.Proofs.Symbol.Innermost
import SymbolIndex.Proofs.Tree.Places
import SymbolIndex.Tree.Snippet

/-!
# The scope in which a variable is written

A variable is looked up in the innermost scope at its position.  The declarations
around the variable cover its start; any other declaration does so only if it
ends there, as both ends of a range belong to it.  So when nothing ends where the
variable starts, the innermost scope is the symbol that was read from the
innermost declaration around the variable.
-/

namespace SymbolIndex

/-! ## Declarations around a place -/

namespace Tree

open Reading

variable {doc : Document} {layers : List Layer} {layer : Layer} {tree : Tree}

/-- The path to the symbol that is read from the innermost declaration around a
place.  `count` declarations have been read before in the one around the layers. -/
def declarationPath (doc : Document) (count : Nat) : List Layer → List Nat
  | [] => []
  | layer :: rest =>
    let skipped := (nestsAll doc layer.earlier).length
    if declaresScope layer.kind then count :: declarationPath doc skipped rest
    else declarationPath doc (count + skipped) rest

theorem nestsAll_append (left right : List Tree) :
    nestsAll doc (left ++ right) = nestsAll doc left ++ nestsAll doc right := by
  induction left with
  | nil => rfl
  | cons tree rest ih => rw [List.cons_append, nestsAll, nestsAll, ih, List.append_assoc]

/-- A phrase that declares no scope leaves the nests around a place on one level. -/
theorem nests_wrap_of_plain (hplain : declaresScope layer.kind = false)
    (hdescends : descendsForDeclarations layer.kind = true) :
    (wrap (layer :: layers) tree).nests doc =
      nestsAll doc layer.earlier ++ ((wrap layers tree).nests doc ++ nestsAll doc layer.later) := by
  rw [wrap, nests_of_plain (declaredKind?_eq_none hplain _), if_pos hdescends, nestsAll_append,
    nestsAll]

/-- A declaration around a place makes one nest of what is inside. -/
theorem exists_nests_wrap_of_declaresScope (hdeclares : declaresScope layer.kind = true) :
    ∃ kind name, (wrap (layer :: layers) tree).nests doc =
      [.node kind name (locationOf doc (wrap (layer :: layers) tree))
        (nestsAll doc layer.earlier ++
          ((wrap layers tree).nests doc ++ nestsAll doc layer.later))] := by
  obtain ⟨kind, hkind⟩ := exists_declaredKind? hdeclares
    (declaredName doc layer.kind (wrap (layer :: layers) tree))
  refine ⟨kind, shortName (declaredName doc layer.kind (wrap (layer :: layers) tree)), ?_⟩
  rw [wrap] at hkind ⊢
  rw [nests, hkind, hidesDeclarations_of_declaresScope hdeclares, if_neg Bool.false_ne_true,
    nestsAll_append, nestsAll]

mutual

/-- A nest is located at a declaration. -/
theorem exists_part_of_mem_nests : (tree : Tree) → ∀ {nest : Nest}, nest ∈ tree.nests doc →
    ∃ part ∈ tree.parts, part.phraseKind?.any declaresScope = true ∧
      nest.location = locationOf doc part
  | .token leaf => fun hnest => absurd hnest List.not_mem_nil
  | .phrase kind children => by
      intro hnest
      have hinner : ∀ inner ∈ nestsAll doc children,
          ∃ part ∈ (phrase kind children).parts, part.phraseKind?.any declaresScope = true ∧
            inner.location = locationOf doc part := by
        intro inner hbelow
        obtain ⟨part, hpart, hfound⟩ := exists_part_of_mem_nestsAll children hbelow
        exact ⟨part, mem_parts_phrase.2 (Or.inr (mem_partsAll_iff.1 hpart)), hfound⟩
      rw [nests] at hnest
      split at hnest
      · rename_i declared hdeclared
        rw [List.mem_singleton.1 hnest]
        refine ⟨_, self_mem_parts _, ?_, rfl⟩
        cases hdeclares : declaresScope kind with
        | true => exact hdeclares
        | false =>
            rw [declaredKind?_eq_none hdeclares] at hdeclared
            cases hdeclared
      · split at hnest
        · exact absurd hnest List.not_mem_nil
        · exact hinner _ hnest

theorem exists_part_of_mem_nestsAll : (trees : List Tree) → ∀ {nest : Nest},
    nest ∈ nestsAll doc trees →
    ∃ part ∈ partsAll trees, part.phraseKind?.any declaresScope = true ∧
      nest.location = locationOf doc part
  | [] => fun hnest => absurd hnest List.not_mem_nil
  | tree :: rest => by
      intro hnest
      rw [nestsAll] at hnest
      rw [partsAll]
      rcases List.mem_append.1 hnest with hfirst | hlater
      · obtain ⟨part, hpart, hfound⟩ := exists_part_of_mem_nests tree hfirst
        exact ⟨part, List.mem_append_left _ hpart, hfound⟩
      · obtain ⟨part, hpart, hfound⟩ := exists_part_of_mem_nestsAll rest hlater
        exact ⟨part, List.mem_append_right _ hpart, hfound⟩

end

end Tree

/-! ## The symbol of the innermost declaration -/

namespace Reading

open SymbolIndex.Symbol SymbolIndex.Tree

variable {doc : Document} {leaf : Token} {tree : Tree}

/-- A token that is no blank or comment stands in a tree, and no declaration
beside it covers its start. -/
structure StandsIn (doc : Document) (leaf : Token) (tree : Tree) : Prop where
  laid : SourceText.LaidOut doc.text tree.tokens
  mem : leaf ∈ tree.tokens
  solid : leaf.kind.isTrivia = false
  beside : ∀ part ∈ tree.parts, part.phraseKind?.any declaresScope = true → leaf ∉ part.tokens →
    (doc.treeRange part).contains (doc.tokenRange leaf).start = false

theorem StandsIn.part {part : Tree} (hstands : StandsIn doc leaf tree) (hpart : part ∈ tree.parts)
    (hmem : leaf ∈ part.tokens) : StandsIn doc leaf part where
  laid := hstands.laid.part hpart
  mem := hmem
  solid := hstands.solid
  beside inner hinner := hstands.beside inner (tree.mem_parts_trans hpart hinner)

theorem StandsIn.contains (hstands : StandsIn doc leaf tree) :
    (doc.treeRange tree).contains (doc.tokenRange leaf).start = true := by
  have hranges := hstands.laid.containsRange_treeRange (mem_solidTokens hstands.mem hstands.solid)
  obtain ⟨hstart, hstop⟩ := Range.containsRange_iff.1 hranges
  have hboundary := (hstands.laid.boundaries leaf hstands.mem).1
  have hwidth := SourceText.positionAt_mono hboundary
    (Nat.le_of_lt (hstands.laid.wide leaf hstands.mem))
  exact Range.contains_iff.2 ⟨hstart, le_trans hwidth hstop⟩

/-- Trees without the token have no nest that covers its start. -/
theorem StandsIn.nests_beside {trees : List Tree} (hstands : StandsIn doc leaf tree)
    (hparts : ∀ part ∈ partsAll trees, part.phraseKind?.any declaresScope = true →
      part ∈ tree.parts ∧ leaf ∉ part.tokens) :
    ∀ nest ∈ Tree.nestsAll doc trees, nest.covers (doc.tokenRange leaf).start = false := by
  intro nest hnest
  obtain ⟨part, hpart, hdeclares, hlocation⟩ := exists_part_of_mem_nestsAll trees hnest
  obtain ⟨hbelow, hnot⟩ := hparts part hpart hdeclares
  rw [Nest.covers, hlocation]
  exact hstands.beside part hbelow hdeclares hnot

/-- No nest before or behind the child with the token covers its start. -/
theorem StandsIn.nests_siblings {kind : PhraseKind} {earlier later : List Tree} {child : Tree}
    (hstands : StandsIn doc leaf (.phrase kind (earlier ++ child :: later)))
    (hchild : leaf ∈ child.tokens) :
    (∀ nest ∈ Tree.nestsAll doc earlier, nest.covers (doc.tokenRange leaf).start = false) ∧
      ∀ nest ∈ Tree.nestsAll doc later, nest.covers (doc.tokenRange leaf).start = false := by
  have hnodup := hstands.laid.nodup
  rw [tokens, tokensAll_append, tokensAll] at hnodup
  obtain ⟨-, hrest, hearlier⟩ := List.nodup_append.1 hnodup
  obtain ⟨-, -, hlater⟩ := List.nodup_append.1 hrest
  constructor
  · refine hstands.nests_beside fun part hpart _ => ⟨?_, fun hmem => ?_⟩
    · obtain ⟨sibling, hsibling, hbelow⟩ := mem_partsAll_iff.1 hpart
      exact mem_parts_phrase.2 (Or.inr ⟨sibling, List.mem_append_left _ hsibling, hbelow⟩)
    · exact hearlier leaf ((tokens_sublist_of_mem_partsAll _ hpart).subset hmem) leaf
        (List.mem_append_left _ hchild) rfl
  · refine hstands.nests_beside fun part hpart _ => ⟨?_, fun hmem => ?_⟩
    · obtain ⟨sibling, hsibling, hbelow⟩ := mem_partsAll_iff.1 hpart
      exact mem_parts_phrase.2 (Or.inr
        ⟨sibling, List.mem_append_right _ (List.mem_cons_of_mem _ hsibling), hbelow⟩)
    · exact hlater leaf hchild leaf ((tokens_sublist_of_mem_partsAll _ hpart).subset hmem) rfl

/-- Below a phrase that declares nothing, the path goes on in the same symbol. -/
theorem declarationPath_of_plain {layers : List Layer} {layer : Layer} {symbol : Symbol}
    {before after : List Nest} (hplain : declaresScope layer.kind = false)
    (hdescends : descendsForDeclarations layer.kind = true)
    (hnests : Symbol.nestsAll symbol.children =
      before ++ ((wrap (layer :: layers) tree).nests doc ++ after)) :
    declarationPath doc before.length (layer :: layers) =
        declarationPath doc (before ++ Tree.nestsAll doc layer.earlier).length layers ∧
      Symbol.nestsAll symbol.children =
        (before ++ Tree.nestsAll doc layer.earlier) ++
          ((wrap layers tree).nests doc ++ (Tree.nestsAll doc layer.later ++ after)) := by
  constructor
  · rw [declarationPath, hplain, if_neg Bool.false_ne_true, List.length_append]
  · rw [hnests, nests_wrap_of_plain hplain hdescends]
    simp only [List.append_assoc]

/-- At a declaration, the path goes on in its symbol. -/
theorem exists_child_of_declaresScope {layers : List Layer} {layer : Layer} {symbol : Symbol}
    {before after : List Nest} (hdeclares : declaresScope layer.kind = true)
    (hnests : Symbol.nestsAll symbol.children =
      before ++ ((wrap (layer :: layers) tree).nests doc ++ after)) :
    ∃ front child back, symbol.children = front ++ child :: back ∧
      Symbol.nestsAll front = before ∧ Symbol.nestsAll back = after ∧
      child.isDeclaration = true ∧ child.nests = (wrap (layer :: layers) tree).nests doc ∧
      child.location = locationOf doc (wrap (layer :: layers) tree) ∧
      Symbol.nestsAll child.children = Tree.nestsAll doc layer.earlier ++
        ((wrap layers tree).nests doc ++ Tree.nestsAll doc layer.later) ∧
      symbol.declaredAt? (declarationPath doc before.length (layer :: layers)) =
        child.declaredAt?
          (declarationPath doc (Tree.nestsAll doc layer.earlier).length layers) := by
  obtain ⟨kind, name, hnode⟩ :=
    @exists_nests_wrap_of_declaresScope doc layers layer tree hdeclares
  rw [hnode, List.singleton_append] at hnests
  obtain ⟨front, child, back, hchildren, hdeclaration, hnest, hfront, hback, hplace⟩ :=
    exists_of_nestsAll_eq hnests
  refine ⟨front, child, back, hchildren, hfront, hback, hdeclaration, ?_, ?_, ?_, ?_⟩
  · rw [hnode, Symbol.nests_eq, if_pos hdeclaration, ← hnest]
    rfl
  · injection hnest
  · injection hnest
  · rw [declarationPath, if_pos hdeclares, declaredAt?, hplace]
    rfl

/-- Going down along the layers, the symbol of each declaration covers the token,
and at the end no declaration does. -/
theorem declaredAt?_declarationPath {outer : List Layer} {symbol : Symbol}
    {before after : List Nest} (hstands : StandsIn doc leaf (wrap outer tree))
    (hmem : leaf ∈ tree.tokens)
    (hinner : ∀ nest ∈ tree.nests doc, nest.covers (doc.tokenRange leaf).start = false)
    (hdescends : ∀ layer ∈ outer, descendsForDeclarations layer.kind = true)
    (hscopes : ScopesDeclared (doc.tokenRange leaf).start symbol)
    (hnests : Symbol.nestsAll symbol.children =
      before ++ ((wrap outer tree).nests doc ++ after))
    (hbefore : ∀ nest ∈ before, nest.covers (doc.tokenRange leaf).start = false)
    (hafter : ∀ nest ∈ after, nest.covers (doc.tokenRange leaf).start = false) :
    symbol.declaredAt? (declarationPath doc before.length outer) =
      some (symbol.innermostScope (doc.tokenRange leaf).start) := by
  induction outer generalizing symbol before after with
  | nil =>
      rw [declarationPath, declaredAt?, innermostScope_eq_self hscopes]
      rw [hnests]
      exact List.forall_mem_append.2 ⟨hbefore, List.forall_mem_append.2 ⟨hinner, hafter⟩⟩
  | cons layer rest ih =>
      obtain ⟨hfirst, hrest⟩ := List.forall_mem_cons.1 hdescends
      have hbelow : leaf ∈ (wrap rest tree).tokens := by
        rw [tokens_wrap]
        exact List.mem_append_right _ (List.mem_append_left _ hmem)
      have hpart : wrap rest tree ∈ (wrap (layer :: rest) tree).parts :=
        mem_parts_phrase.2 (Or.inr
          ⟨_, List.mem_append_right _ List.mem_cons_self, self_mem_parts _⟩)
      obtain ⟨hearlier, hlater⟩ := hstands.nests_siblings hbelow
      have hinside := hstands.part hpart hbelow
      cases hdeclares : declaresScope layer.kind with
      | false =>
          obtain ⟨hpath, hsplit⟩ := declarationPath_of_plain hdeclares hfirst hnests
          rw [hpath]
          exact ih hinside hrest hscopes hsplit (List.forall_mem_append.2 ⟨hbefore, hearlier⟩)
            (List.forall_mem_append.2 ⟨hlater, hafter⟩)
      | true =>
          obtain ⟨front, child, back, hchildren, hfront, hback, hdeclaration, -, hlocation,
            hinnerNests, hpath⟩ := exists_child_of_declaresScope hdeclares hnests
          have hcovers : child.covers (doc.tokenRange leaf).start = true := by
            rw [covers, range?, hlocation]
            exact hstands.contains
          have hchild : child ∈ symbol.children := by
            rw [hchildren]
            exact List.mem_append_right _ List.mem_cons_self
          rw [hpath, innermostScope_eq_of_covers hscopes hchildren hdeclaration hcovers
            (hfront ▸ hbefore) (hback ▸ hafter)]
          exact ih hinside hrest (hscopes.child hchild) hinnerNests hearlier hlater

/-- The path to a declaration leads to the symbol with its nest. -/
theorem exists_declaredAt? {above : List Layer} {layer : Layer} {symbol : Symbol}
    {before after : List Nest} (hdeclares : declaresScope layer.kind = true)
    (hdescends : ∀ layer ∈ above, descendsForDeclarations layer.kind = true)
    (hnests : Symbol.nestsAll symbol.children =
      before ++ ((wrap (above ++ [layer]) tree).nests doc ++ after)) :
    ∃ found, symbol.declaredAt? (declarationPath doc before.length (above ++ [layer])) =
      some found ∧ found.nests = (wrap [layer] tree).nests doc := by
  induction above generalizing symbol before after with
  | nil =>
      obtain ⟨front, child, back, -, -, -, -, hsame, -, -, hpath⟩ :=
        exists_child_of_declaresScope hdeclares hnests
      exact ⟨child, hpath, hsame⟩
  | cons first rest ih =>
      obtain ⟨hfirst, hrest⟩ := List.forall_mem_cons.1 hdescends
      rw [List.cons_append] at hnests ⊢
      cases houter : declaresScope first.kind with
      | false =>
          obtain ⟨hpath, hsplit⟩ := declarationPath_of_plain houter hfirst hnests
          rw [hpath]
          exact ih hrest hsplit
      | true =>
          obtain ⟨front, child, back, -, -, -, -, -, -, hinnerNests, hpath⟩ :=
            exists_child_of_declaresScope houter hnests
          rw [hpath]
          exact ih hrest hinnerNests

/-! ## Variables -/

/-- The place of a variable to which the walk over uses comes. -/
structure WrittenAt (doc : Document) (layers : List Layer) (leaf : Token) : Prop where
  tree : doc.tree = wrap layers (.token leaf)
  kind : leaf.kind = .variableName
  visited : ∀ layer ∈ layers, descendsForUses layer.kind = true ∨ layer.kind = .simpleVariable

/-- No declaration, use clause or doc comment ends at a position. -/
structure NothingEnds (doc : Document) (position : Position) : Prop where
  phrases : ∀ part ∈ doc.tree.parts,
    (part.phraseKind?.any declaresScope || part.phraseKind?.any isUseClause) = true →
    (doc.treeRange part).stop ≠ position
  comments : ∀ comment ∈ doc.tree.tokens, comment.kind = .documentComment →
    (doc.tokenRange comment).stop ≠ position

/-- Every variable to which the walk comes has a place in the tree. -/
theorem exists_writtenAt {table : SymbolTable} {source : SymbolSource}
    (hvisits : VisitsVariable doc table source leaf) : ∃ layers, WrittenAt doc layers leaf := by
  cases hvisits with
  | token before hkind hvisits =>
      obtain ⟨layers, htree, hlayers, -⟩ := Walk.exists_layers_of_visits hvisits
      exact ⟨layers, htree, hkind, fun layer hlayer => Or.inl (hlayers layer hlayer)⟩
  | phrase children before hleaf hvisits =>
      obtain ⟨layers, htree, hlayers, -⟩ := Walk.exists_layers_of_visits hvisits
      obtain ⟨hchild, hkind⟩ := mem_children_of_childToken? hleaf
      obtain ⟨earlier, later, hsplit⟩ := List.append_of_mem hchild
      have hchildren : children = earlier ++ .token leaf :: later := hsplit
      refine ⟨layers ++ [⟨.simpleVariable, earlier, later⟩], ?_, hkind, ?_⟩
      · rw [wrap_append, htree, hchildren]
        rfl
      · exact List.forall_mem_append.2 ⟨fun layer hlayer => Or.inl (hlayers layer hlayer),
          List.forall_mem_singleton.2 (Or.inr rfl)⟩

variable {layers : List Layer}

/-- A part that holds the token of a place is the token or a phrase around it. -/
theorem eq_wrap_of_mem_tokens {part : Tree}
    (hlaid : SourceText.LaidOut doc.text (wrap layers (.token leaf)).tokens)
    (hpart : part ∈ (wrap layers (.token leaf)).parts) :
    part = .token leaf ∨
      (∃ outer layer inner, layers = outer ++ layer :: inner ∧
        part = wrap (layer :: inner) (.token leaf)) ∨
      (leaf ∉ part.tokens ∧ (part ∈ partsAll (earlierIn layers) ∨
        part ∈ partsAll (laterIn layers))) := by
  have hnodup := hlaid.nodup
  rw [tokens_wrap] at hnodup
  obtain ⟨-, hrest, hearlier⟩ := List.nodup_append.1 hnodup
  obtain ⟨-, -, hlater⟩ := List.nodup_append.1 hrest
  have hself : leaf ∈ (Tree.token leaf).tokens := List.mem_singleton.2 rfl
  rcases mem_parts_wrap hpart with hleaf | haround | hbeside
  · exact Or.inl (List.mem_singleton.1 hleaf)
  · exact Or.inr (Or.inl haround)
  · refine Or.inr (Or.inr ⟨fun hmem => ?_, hbeside⟩)
    rcases hbeside with hbefore | hbehind
    · exact hearlier leaf ((tokens_sublist_of_mem_partsAll _ hbefore).subset hmem) leaf
        (List.mem_append_left _ hself) rfl
    · exact hlater leaf hself leaf ((tokens_sublist_of_mem_partsAll _ hbehind).subset hmem) rfl

theorem mem_tokens_wrap (layers : List Layer) (leaf : Token) :
    leaf ∈ (wrap layers (.token leaf)).tokens := by
  rw [tokens_wrap]
  exact List.mem_append_right _ (List.mem_append_left _ (List.mem_singleton.2 rfl))

section

variable (hlaid : SourceText.LaidOut doc.text doc.tree.tokens)
  (hwritten : WrittenAt doc layers leaf)
  (hends : NothingEnds doc (doc.tokenRange leaf).start)
include hlaid hwritten hends

theorem standsIn_of_nothingEnds : StandsIn doc leaf doc.tree := by
  have hplaced := hlaid
  rw [hwritten.tree] at hplaced
  refine ⟨hlaid, ?_, by rw [hwritten.kind]; rfl, ?_⟩
  · rw [hwritten.tree]
    exact mem_tokens_wrap layers leaf
  · intro part hpart hdeclares hnot
    have hplace := hpart
    rw [hwritten.tree] at hplace
    rw [← Bool.not_eq_true]
    intro hcontains
    rcases eq_wrap_of_mem_tokens hplaced hplace with rfl | ⟨_, _, _, -, rfl⟩ | ⟨-, hbeside⟩
    · exact hnot (List.mem_singleton.2 rfl)
    · exact hnot (mem_tokens_wrap _ leaf)
    · refine hends.phrases part hpart ?_
        (hplaced.treeRange_stop_of_contains (List.mem_singleton.2 rfl) hbeside hcontains)
      rw [hdeclares]
      rfl

/-- No clause of a use declaration covers the start of the variable. -/
theorem contains_clause {declaration clause : Tree} (hpart : declaration ∈ doc.tree.parts)
    (huse : declaration.isPhrase .namespaceUseDeclaration = true)
    (hclause : clause ∈ declaration.parts) (hkind : clause.phraseKind?.any isUseClause = true) :
    (doc.treeRange clause).contains (doc.tokenRange leaf).start = false := by
  have hplaced := hlaid
  have hplace := hpart
  rw [hwritten.tree] at hplaced hplace
  rw [← Bool.not_eq_true]
  intro hcontains
  rcases eq_wrap_of_mem_tokens hplaced hplace with rfl | ⟨outer, layer, inner, hlayers, rfl⟩ |
    ⟨-, hbeside⟩
  · cases huse
  · -- The walk over uses does not go below a use declaration.
    have hlayerKind : layer.kind = .namespaceUseDeclaration := Option.some.inj (beq_iff_eq.1 huse)
    have hlayer : layer ∈ layers := hlayers ▸ List.mem_append_right _ List.mem_cons_self
    rcases hwritten.visited layer hlayer with hdescends | hvariable
    · rw [hlayerKind] at hdescends
      cases hdescends
    · rw [hlayerKind] at hvariable
      cases hvariable
  · have hstop := hplaced.treeRange_stop_of_contains (List.mem_singleton.2 rfl)
      (hbeside.imp (fun hbefore => mem_partsAll_trans _ hbefore hclause)
        fun hbehind => mem_partsAll_trans _ hbehind hclause) hcontains
    refine hends.phrases clause (doc.tree.mem_parts_trans hpart hclause) ?_ hstop
    rw [hkind, Bool.or_true]

/-- No comment covers the start of the variable. -/
theorem contains_comment {comment : Token} (hmem : comment ∈ doc.tree.tokens)
    (hkind : comment.kind = .documentComment) :
    (doc.tokenRange comment).contains (doc.tokenRange leaf).start = false := by
  have hplaced := hlaid
  have hplace := hmem
  rw [hwritten.tree] at hplaced hplace
  rw [← Bool.not_eq_true]
  intro hcontains
  have hbeside : comment ∈ tokensAll (earlierIn layers) ∨ comment ∈ tokensAll (laterIn layers) := by
    rw [tokens_wrap, List.mem_append, List.mem_append] at hplace
    rcases hplace with hearlier | hself | hlater
    · exact Or.inl hearlier
    · rw [List.mem_singleton.1 hself, hwritten.kind] at hkind
      cases hkind
    · exact Or.inr hlater
  exact hends.comments comment hmem hkind
    (hplaced.tokenRange_stop_of_contains (List.mem_singleton.2 rfl) hbeside hcontains)

/-- In the table of a document the scopes that cover a place are declared ones. -/
theorem scopesDeclared_root :
    ScopesDeclared (doc.tokenRange leaf).start (SymbolTable.ofDocument doc).root := by
  refine ⟨(grown_root doc).2, fun part hpart hscope hcovers => ?_⟩
  have hlocated : ∀ {range : Range}, part.location = some (doc.location range) →
      range.contains (doc.tokenRange leaf).start = true := by
    intro range hlocation
    rw [covers, range?, hlocation] at hcovers
    exact hcovers
  obtain ⟨tree, htree, horigin⟩ := scopeOrigin_of_mem_preorderAll part hpart hscope
  cases horigin with
  | declaration hdeclaration => exact hdeclaration
  | clause clause huse hclause hkind hlocation =>
      have hcontains := hlocated hlocation
      rw [contains_clause hlaid hwritten hends htree huse hclause hkind] at hcontains
      cases hcontains
  | comment comment hmem hkind hlocation =>
      have hcontains := hlocated hlocation
      rw [contains_comment hlaid hwritten hends hmem hkind] at hcontains
      cases hcontains

/-- Below the innermost declaration around the variable, no nest covers its start. -/
theorem nests_inner {outer inner : List Layer} (hlayers : layers = outer ++ inner)
    (hplain : ∀ layer ∈ inner, declaresScope layer.kind = false) :
    ∀ nest ∈ (wrap inner (.token leaf)).nests doc,
      nest.covers (doc.tokenRange leaf).start = false := by
  have hstands := standsIn_of_nothingEnds hlaid hwritten hends
  have hbelow : wrap inner (.token leaf) ∈ doc.tree.parts := by
    rw [hwritten.tree, hlayers, wrap_append]
    exact self_mem_parts_wrap outer _
  have hinside := hstands.part hbelow (mem_tokens_wrap inner leaf)
  intro nest hnest
  obtain ⟨part, hpart, hdeclares, hlocation⟩ := exists_part_of_mem_nests _ hnest
  rw [Nest.covers, hlocation]
  apply hinside.beside part hpart hdeclares
  rcases eq_wrap_of_mem_tokens hinside.laid hpart with rfl | ⟨_, layer, _, hsplit, rfl⟩ | ⟨hnot, -⟩
  · cases hdeclares
  · have hkind : declaresScope layer.kind = true := hdeclares
    rw [hplain layer (hsplit ▸ List.mem_append_right _ List.mem_cons_self)] at hkind
    cases hkind
  · exact hnot

end

/-- The innermost declaration around a place is the one that is found there. -/
theorem declaredAt?_eq_scopeAt {outer inner : List Layer}
    (hlaid : SourceText.LaidOut doc.text doc.tree.tokens)
    (hwritten : WrittenAt doc (outer ++ inner) leaf)
    (hends : NothingEnds doc (doc.tokenRange leaf).start)
    (hdescends : ∀ layer ∈ outer, descendsForDeclarations layer.kind = true)
    (hplain : ∀ layer ∈ inner, declaresScope layer.kind = false) :
    (SymbolTable.ofDocument doc).root.declaredAt? (declarationPath doc 0 outer) =
      some ((SymbolTable.ofDocument doc).scopeAt (doc.tokenRange leaf).start) := by
  have hstands := standsIn_of_nothingEnds hlaid hwritten hends
  have hnests : Symbol.nestsAll (SymbolTable.ofDocument doc).root.children =
      [] ++ ((wrap outer (wrap inner (.token leaf))).nests doc ++ []) := by
    rw [(grown_root doc).1.nests, ← wrap_append, ← hwritten.tree, List.append_nil]
    rfl
  rw [hwritten.tree, wrap_append] at hstands
  exact declaredAt?_declarationPath hstands (mem_tokens_wrap inner leaf)
    (nests_inner hlaid hwritten hends rfl hplain) hdescends
    (scopesDeclared_root hlaid hwritten hends) hnests
    (fun _ hmem => absurd hmem List.not_mem_nil) fun _ hmem => absurd hmem List.not_mem_nil

end Reading

open Reading SymbolIndex.Tree in
/-- Each reference of a variable has a place in the tree.  If nothing ends where
it starts, the scope at its start is the symbol that was read from the innermost
declaration around that place, and the root if there is none. -/
theorem SymbolTable.scopeAt_start_of_isVariable {doc : Document} {table : SymbolTable}
    {source : SymbolSource} (hlaid : SourceText.LaidOut doc.text doc.tree.tokens)
    {reference : Reference}
    (hmem : reference ∈ (ReferenceTable.ofDocument doc table source).references)
    (hvariable : reference.kind.isVariable = true) (hends : NothingEnds doc reference.start) :
    ∃ layers leaf, WrittenAt doc layers leaf ∧
      reference.location = doc.location (doc.tokenRange leaf) ∧
      (∀ above layer inner, layers = above ++ layer :: inner → declaresScope layer.kind = true →
        (∀ other ∈ above, descendsForDeclarations other.kind = true) →
        (∀ other ∈ inner, declaresScope other.kind = false) →
        (ofDocument doc).root.declaredAt? (declarationPath doc 0 (above ++ [layer])) =
          some ((ofDocument doc).scopeAt reference.start) ∧
        ((ofDocument doc).scopeAt reference.start).nests =
          (wrap (layer :: inner) (.token leaf)).nests doc) ∧
      ((∀ other ∈ layers, declaresScope other.kind = false) →
        (ofDocument doc).scopeAt reference.start = (ofDocument doc).root) := by
  have hadmits : Admits doc fun reference => reference.kind.isVariable = true →
      ∃ layers leaf, WrittenAt doc layers leaf ∧
        reference.location = doc.location (doc.tokenRange leaf) := by
    refine ⟨fun reference type hplaced => hplaced, fun reference hplain _ hkind => ?_⟩
    rw [hplain] at hkind
    cases hkind
  have hplaced := ReferenceTable.forall_mem_references hadmits (by
    intro leaf hvisits reference hlocation _
    obtain ⟨layers, hwritten⟩ := exists_writtenAt hvisits
    exact ⟨layers, leaf, hwritten, hlocation⟩) reference hmem hvariable
  obtain ⟨layers, leaf, hwritten, hlocation⟩ := hplaced
  have hstart : reference.start = (doc.tokenRange leaf).start := by
    rw [Reference.start, hlocation]
    rfl
  rw [hstart] at hends ⊢
  refine ⟨layers, leaf, hwritten, hlocation, ?_, fun hplain => ?_⟩
  · rintro above layer inner rfl hdeclares hdescends hplain
    have hlayer : descendsForDeclarations layer.kind = true := by
      rw [← Bool.not_eq_false', ← hidesDeclarations_eq]
      exact hidesDeclarations_of_declaresScope hdeclares
    have hsplit : above ++ layer :: inner = (above ++ [layer]) ++ inner := by
      rw [List.append_assoc, List.singleton_append]
    have hwritten' := hwritten
    rw [hsplit] at hwritten'
    have hscope := declaredAt?_eq_scopeAt hlaid hwritten' hends
      (List.forall_mem_append.2 ⟨hdescends, List.forall_mem_singleton.2 hlayer⟩) hplain
    have hnests : Symbol.nestsAll (ofDocument doc).root.children =
        [] ++ ((wrap (above ++ [layer]) (wrap inner (.token leaf))).nests doc ++ []) := by
      rw [(grown_root doc).1.nests, ← wrap_append, ← hwritten'.tree, List.append_nil]
      rfl
    obtain ⟨found, hfound, hsame⟩ := exists_declaredAt? hdeclares hdescends hnests
    rw [List.length_nil, hscope] at hfound
    obtain rfl := Option.some.inj hfound
    exact ⟨hscope, hsame⟩
  · have hscope := @declaredAt?_eq_scopeAt doc leaf [] layers hlaid hwritten hends
      (fun _ hmem => absurd hmem List.not_mem_nil) hplain
    exact (Option.some.inj hscope).symm

/-- A variable in a function, which is followed by a blank. -/
def localDocument : Document :=
  Snippet.document "a" "<?php function f() { $x = 1; }"
    [Snippet.function "f" [] none
      [Snippet.expressionStatement
        (Snippet.assignment (Snippet.variableUse "$x") (Snippet.integerLiteral "1"))]]

open Reading SymbolIndex.Tree in
/-- The variable is found in the function around it. -/
theorem SymbolTable.scopeAt_start_of_isVariable_local :
    let table := ofDocument localDocument
    SourceText.LaidOut localDocument.text localDocument.tree.tokens ∧
    ∃ reference ∈ (ReferenceTable.ofDocument localDocument table .unknown).references,
      reference.name = "$x" ∧ reference.kind.isVariable = true ∧
      NothingEnds localDocument reference.start ∧ (table.scopeAt reference.start).name = "f" ∧
      ∃ layers leaf, WrittenAt localDocument layers leaf ∧
        reference.location = localDocument.location (localDocument.tokenRange leaf) ∧
        (∀ above layer inner, layers = above ++ layer :: inner → declaresScope layer.kind = true →
          (∀ other ∈ above, descendsForDeclarations other.kind = true) →
          (∀ other ∈ inner, declaresScope other.kind = false) →
          table.root.declaredAt? (declarationPath localDocument 0 (above ++ [layer])) =
            some (table.scopeAt reference.start) ∧
          (table.scopeAt reference.start).nests =
            (wrap (layer :: inner) (.token leaf)).nests localDocument) ∧
        ((∀ other ∈ layers, declaresScope other.kind = false) →
          table.scopeAt reference.start = table.root) := by
  have hlaid : SourceText.LaidOut localDocument.text localDocument.tree.tokens := by
    decide +kernel
  have hfound : ∃ reference ∈ (ReferenceTable.ofDocument localDocument
      (ofDocument localDocument) .unknown).references,
      reference.name = "$x" ∧ reference.kind.isVariable = true ∧
      ((∀ part ∈ localDocument.tree.parts,
        (part.phraseKind?.any declaresScope || part.phraseKind?.any isUseClause) = true →
        (localDocument.treeRange part).stop ≠ reference.start) ∧
      ∀ comment ∈ localDocument.tree.tokens, comment.kind = .documentComment →
        (localDocument.tokenRange comment).stop ≠ reference.start) ∧
      ((ofDocument localDocument).scopeAt reference.start).name = "f" := by
    decide +kernel
  obtain ⟨reference, hmem, hname, hvariable, ⟨hphrases, hcomments⟩, hscope⟩ := hfound
  have hends : NothingEnds localDocument reference.start := ⟨hphrases, hcomments⟩
  exact ⟨hlaid, reference, hmem, hname, hvariable, hends, hscope,
    scopeAt_start_of_isVariable hlaid hmem hvariable hends⟩

/-- A function, directly followed by a variable. -/
def touchingDocument : Document :=
  Snippet.document "a" "<?php function f() {}$x = 1;"
    [Snippet.function "f" [] none [],
      Snippet.expressionStatement
        (Snippet.assignment (Snippet.variableUse "$x") (Snippet.integerLiteral "1"))]

/-- No declaration holds the variable, but the function ends where it starts. -/
theorem SymbolTable.scopeAt_start_behind_function :
    let table := ofDocument touchingDocument
    SourceText.LaidOut touchingDocument.text touchingDocument.tree.tokens ∧
    ∃ reference ∈ (ReferenceTable.ofDocument touchingDocument table .unknown).references,
      reference.kind.isVariable = true ∧
      ∃ leaf ∈ touchingDocument.tree.tokens,
        reference.location = touchingDocument.location (touchingDocument.tokenRange leaf) ∧
        (∀ part ∈ touchingDocument.tree.parts,
          part.phraseKind?.any Reading.declaresScope = true → leaf ∉ part.tokens) ∧
        (table.scopeAt reference.start).kind = .function ∧ table.root.kind = .file := by
  decide +kernel

end SymbolIndex
