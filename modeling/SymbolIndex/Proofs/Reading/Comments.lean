import SymbolIndex.Proofs.Equality
import SymbolIndex.Proofs.Reading.Entries
import SymbolIndex.Tree.Snippet

/-!
# Which comment documents a symbol

A doc comment waits for the next declaration.  The end of a statement that the
walk comes to ends the wait, so between a comment and the declaration that it
documents statements end only inside phrases that the walk passes over: names,
use declarations, used traits, errors, and headers.  A use declaration without
braces is such a phrase, and a comment waits on behind it.
-/

namespace SymbolIndex

namespace Reading

open SymbolIndex.Symbol

/-- The end of a statement, or a brace. -/
def endsStatement : TokenKind → Bool
  | .openBrace | .closeBrace | .semicolon => true
  | _ => false

/-- Phrases that the walk passes over while a comment goes on waiting. -/
def passesOver : PhraseKind → Bool
  | .error | .namespaceName | .namespaceUseDeclaration | .traitUseClause
  | .functionDeclarationHeader | .classDeclarationHeader | .interfaceDeclarationHeader
  | .traitDeclarationHeader | .methodDeclarationHeader | .anonymousFunctionHeader => true
  | _ => false

/-- No statement ends, save inside phrases that the walk passes over. -/
def Quiet (trees : List Tree) : Prop :=
  ∀ tree ∈ trees, ∀ leaf ∈ tree.tokens, endsStatement leaf.kind = true →
    tree.phraseKind?.any passesOver = true

variable {doc : Document}

/-- What waits is the last comment that the walk has come to, and it has been
quiet since. -/
def Waits (doc : Document) (leaves : List Tree) (pending : Option (DocComment × Range)) : Prop :=
  ∀ waiting, pending = some waiting → ∃ front comment between,
    leaves = front ++ .token comment :: between ∧ comment.kind = .documentComment ∧
      waiting = (DocComment.parse (doc.tokenText comment), doc.tokenRange comment) ∧
      Quiet between

theorem waits_none (leaves : List Tree) : Waits doc leaves none :=
  nofun

/-- A comment waits from the token on that holds it. -/
theorem waits_comment (leaves : List Tree) {comment : Token}
    (hkind : comment.kind = .documentComment) :
    Waits doc (leaves ++ [.token comment])
      (some (DocComment.parse (doc.tokenText comment), doc.tokenRange comment)) := by
  intro waiting hwaiting
  exact ⟨leaves, comment, [], rfl, hkind, (Option.some.inj hwaiting).symm,
    fun _ hmem => absurd hmem List.not_mem_nil⟩

/-- A comment goes on waiting while it is quiet. -/
theorem Waits.append {leaves more : List Tree} {pending : Option (DocComment × Range)}
    (hwaits : Waits doc leaves pending) (hquiet : Quiet more) :
    Waits doc (leaves ++ more) pending := by
  intro waiting hwaiting
  obtain ⟨front, comment, between, rfl, hkind, hparsed, hbetween⟩ := hwaits waiting hwaiting
  exact ⟨front, comment, between ++ more, by rw [List.append_assoc, List.cons_append], hkind,
    hparsed, List.forall_mem_append.2 ⟨hbetween, hquiet⟩⟩

/-! ## What steps do to the comment that waits -/

/-- A token that ends a statement takes the comment back, and other tokens let it wait. -/
theorem waits_token {leaves : List Tree} {state : DeclarationState}
    (hwaits : Waits doc leaves state.pending) (leaf : Token) :
    Waits doc (leaves ++ [.token leaf]) (declarationToken doc leaf state).pending := by
  rw [declarationToken]
  split
  · rename_i hkind
    exact waits_comment leaves hkind
  · exact waits_none _
  · exact waits_none _
  · exact waits_none _
  · rename_i hopen hclose hsemicolon
    have hgoes : endsStatement leaf.kind = false := by
      rw [endsStatement]
      · exact hopen
      · exact hclose
      · exact hsemicolon
    apply hwaits.append
    intro tree htree other hother hends
    rw [List.mem_singleton.1 htree] at hother
    rw [List.mem_singleton.1 hother, hgoes] at hends
    cases hends

namespace DeclarationState

theorem pending_addChild (state : DeclarationState) (symbol : Symbol) :
    (state.addChild symbol).pending = state.pending := by
  rw [addChild]
  split
  · rfl
  · rfl

theorem pending_addChildren (state : DeclarationState) (symbols : List Symbol) :
    (state.addChildren symbols).pending = state.pending := by
  rw [addChildren]
  induction symbols generalizing state with
  | nil => rfl
  | cons symbol rest ih => rw [List.foldl_cons, ih, pending_addChild]

theorem pending_closeSymbol (state : DeclarationState) :
    state.closeSymbol.pending = state.pending := by
  rw [closeSymbol]
  split
  · rfl
  · rw [pending_addChild]

theorem pending_declareImports (state : DeclarationState) (imports : List Symbol) :
    (imports.foldl declareImport state).pending = state.pending := by
  induction imports generalizing state with
  | nil => rfl
  | cons symbol rest ih =>
      rw [List.foldl_cons, ih, declareImport, pending_addChild]

theorem pending_useTraits (state : DeclarationState) (tree : Tree) :
    (useTraits doc tree state).pending = state.pending := by
  rw [useTraits]
  split
  · split
    · rfl
    · rfl
  · rfl

theorem pending_declareTargets (state : DeclarationState) (target? : Option Tree) :
    (declareTargets doc target? state).pending = state.pending := by
  cases target? with
  | none => rfl
  | some target => exact pending_addChildren state _

theorem pending_declareCaught (state : DeclarationState) (tree : Tree) :
    (declareCaught doc tree state).pending = state.pending := by
  rw [declareCaught]
  split
  · rfl
  · exact pending_addChild state _

end DeclarationState

open DeclarationState

variable {kind : PhraseKind} {tree : Tree} {state : DeclarationState}

/-- Where a phrase is entered, what waits goes on waiting or is taken. -/
theorem pending_enterDeclaration :
    (enterDeclaration doc kind tree state).pending = state.pending ∨
      (enterDeclaration doc kind tree state).pending = none := by
  cases kind
  case namespaceUseDeclaration => exact Or.inl (pending_declareImports state _)
  case constDeclaration | propertyDeclaration | classConstDeclaration =>
    exact Or.inr (pending_addChildren _ _)
  case traitUseClause => exact Or.inl (pending_useTraits state tree)
  case functionCallExpression => exact Or.inl (pending_addChildren state _)
  case simpleAssignmentExpression | byRefAssignmentExpression | compoundAssignmentExpression |
      foreachKey | foreachValue => exact Or.inl (pending_declareTargets state _)
  case catchClause => exact Or.inl (pending_declareCaught state tree)
  -- The others open a symbol, which takes what waits, or leave it alone.
  all_goals
    first
    | exact Or.inl rfl
    | exact Or.inr rfl

theorem pending_leaveDeclaration :
    (leaveDeclaration kind tree state).pending = state.pending := by
  cases kind
  case functionDeclaration | methodDeclaration | anonymousFunctionCreationExpression |
      classDeclaration | interfaceDeclaration | traitDeclaration =>
    exact pending_closeSymbol state
  case namespaceDefinition =>
    rw [leaveDeclaration]
    split
    · rfl
    · rfl
  all_goals rfl

/-- A phrase that is not gone below is passed over, or takes what waits. -/
theorem pending_of_not_descends (hpasses : descendsForDeclarations kind = false) :
    passesOver kind = true ∨ (enterDeclaration doc kind tree state).pending = none := by
  cases kind
  case constDeclaration | propertyDeclaration | classConstDeclaration =>
    exact Or.inr (pending_addChildren _ _)
  all_goals
    first
    | exact Or.inl rfl
    | cases hpasses

theorem waits_enter {leaves : List Tree} (hwaits : Waits doc leaves state.pending) :
    Waits doc leaves (enterDeclaration doc kind tree state).pending := by
  rcases @pending_enterDeclaration doc kind tree state with hsame | hnone
  · rwa [hsame]
  · rw [hnone]
    exact waits_none leaves

/-! ## What waits where the walk comes to -/

/-- What waits after a tree comes from the leaves that were before, and those of the tree. -/
def Follows (doc : Document) (tree : Tree) (before after : DeclarationState) : Prop :=
  ∀ leaves, Waits doc leaves before.pending →
    Waits doc (leaves ++ (declarationWalk doc).leaves tree) after.pending

def FollowsAll (doc : Document) (trees : List Tree) (before after : DeclarationState) : Prop :=
  ∀ leaves, Waits doc leaves before.pending →
    Waits doc (leaves ++ (declarationWalk doc).leavesAll trees) after.pending

/-- Whatever the walk goes through, what waits behind comes from the leaves that it has come to.
-/
theorem declarationWalk_relates_follows (doc : Document) :
    (declarationWalk doc).Relates (Follows doc) (FollowsAll doc) where
  token leaf state leaves hwaits := waits_token hwaits leaf
  passed kind children state hpasses leaves hwaits := by
    have hentered : Waits doc leaves
        (enterDeclaration doc kind (.phrase kind children) state).pending := waits_enter hwaits
    rw [Walk.leaves, hpasses]
    rcases @pending_of_not_descends doc kind (.phrase kind children) state hpasses with
      hover | hnone
    · apply hentered.append
      intro tree htree _ _ _
      rw [List.mem_singleton.1 htree]
      exact hover
    · have hnothing : ((declarationWalk doc).enter kind (.phrase kind children) state).pending =
          none := hnone
      rw [hnothing]
      exact waits_none _
  phrase kind children state inside hdescends hchildren leaves hwaits := by
    have hinside := hchildren leaves (waits_enter hwaits)
    have hleft : ((declarationWalk doc).leave kind (.phrase kind children) inside).pending =
        inside.pending := pending_leaveDeclaration
    rw [Walk.leaves, hdescends, hleft]
    exact hinside
  nil state leaves hwaits := by
    rw [Walk.leavesAll, List.append_nil]
    exact hwaits
  cons tree rest state next last htree hrest leaves hwaits := by
    rw [Walk.leavesAll, ← List.append_assoc]
    exact hrest _ (htree leaves hwaits)

/-- Where the walk arrives inside of phrases that it goes below, what waits comes from the
leaves of what stands before the place. -/
theorem waits_arrive {layers : List Layer} {leaves : List Tree}
    (hdescends : ∀ layer ∈ layers, (declarationWalk doc).descends layer.kind = true)
    (hwaits : Waits doc leaves state.pending) :
    Waits doc (leaves ++ (declarationWalk doc).leavesAll (Tree.earlierIn layers))
      ((declarationWalk doc).arrive layers tree state).pending := by
  induction layers generalizing leaves state with
  | nil =>
      rw [Tree.earlierIn, List.flatMap_nil, Walk.leavesAll, List.append_nil]
      exact hwaits
  | cons layer rest ih =>
      have hentered : Waits doc leaves ((declarationWalk doc).enter layer.kind
          (Tree.wrap (layer :: rest) tree) state).pending := waits_enter hwaits
      have hearlier := (declarationWalk_relates_follows doc).runAll layer.earlier _ leaves hentered
      have harrived := ih (List.forall_mem_cons.1 hdescends).2 hearlier
      rw [Tree.earlierIn, List.flatMap_cons, Walk.leavesAll_append, ← List.append_assoc]
      exact harrived

/-! ## Symbols without a comment -/

/-- Nothing that a comment gives to a symbol. -/
structure Bare (symbol : Symbol) : Prop where
  doc : symbol.doc = none
  magic : symbol.modifiers.meets .magic = false

theorem forall_bare {symbol : Symbol} (hbare : Bare symbol)
    (hchildren : ∀ child ∈ symbol.children, child.children = [] ∧ Bare child) :
    ∀ part ∈ symbol.preorder, Bare part :=
  forall_mem_preorder_iff.2 ⟨hbare, fun child hchild =>
    forall_mem_preorder_of_leaf (hchildren child hchild).1 (hchildren child hchild).2⟩

/-- Without a comment an element is not documented. -/
theorem ReadFromElement.bare {element : Tree} {symbol : Symbol}
    (hread : ReadFromElement doc element none symbol) : symbol.children = [] ∧ Bare symbol :=
  ⟨hread.children, hread.doc rfl, hread.modifiers.magic⟩

theorem ReadFromElement.forall_bare {element : Tree} {symbol : Symbol}
    (hread : ReadFromElement doc element none symbol) : ∀ part ∈ symbol.preorder, Bare part :=
  forall_mem_preorder_of_leaf hread.bare.1 hread.bare.2

/-- Without a comment the parameters are bare too. -/
theorem bare_withSignature_none {symbol : Symbol} (hnone : symbol.children = [])
    (hbare : Bare symbol) (resolver : NameResolver) (header? : Option Tree) :
    Bare (withSignature doc resolver header? none symbol) ∧
      ∀ child ∈ (withSignature doc resolver header? none symbol).children,
        child.children = [] ∧ Bare child := by
  cases header? with
  | none =>
      refine ⟨hbare, fun child hchild => ?_⟩
      rw [withSignature, hnone] at hchild
      exact absurd hchild List.not_mem_nil
  | some header =>
      refine ⟨⟨rfl, hbare.magic⟩, ?_⟩
      rw [withSignature, hnone]
      intro child hchild
      obtain ⟨element, -, hread, -⟩ := exists_element_of_mem_parametersOf hchild
      exact hread.bare

theorem bare_of_mem_capturedBy {header? : Option Tree} :
    ∀ child ∈ capturedBy doc header?, child.children = [] ∧ Bare child := by
  intro child hchild
  obtain ⟨leaf, hcaptured⟩ := exists_captured_of_mem_capturedBy hchild
  exact ⟨hcaptured.children, hcaptured.doc, hcaptured.magic⟩

theorem magic_memberModifiers (tree? : Option Tree) :
    (memberModifiers tree?).meets .magic = false :=
  (written_memberModifiers tree?).magic

theorem bare_openedClass (hpending : state.pending = none) :
    ∀ part ∈ (openedClass doc kind tree state).preorder, Bare part := by
  have hplain : openedClass doc kind tree state = classLikeOf doc state.resolver kind tree := by
    rw [openedClass, withComment, hpending]
  rw [hplain]
  exact forall_mem_preorder_of_leaf rfl ⟨rfl, (written_classLikeOf _ _ _).magic⟩

theorem bare_of_declaresScope {symbol : Symbol} (hpending : state.pending = none)
    (hdeclares : declaresScope kind = true) (hmem : symbol ∈ broughtBy doc state kind tree) :
    ∀ part ∈ symbol.preorder, Bare part := by
  have hfunction : ∀ {start : Symbol} {header? : Option Tree}, start.children = [] →
      Bare start →
      ∀ part ∈ (withSignature doc state.resolver header? (state.pending.map (·.1))
        start).preorder, Bare part := by
    intro start header? hnone hbare
    rw [hpending]
    obtain ⟨hhead, hchildren⟩ := bare_withSignature_none hnone hbare state.resolver header?
    exact forall_bare hhead hchildren
  cases kind
  case functionDeclaration =>
    rw [List.mem_singleton.1 hmem]
    exact hfunction rfl ⟨rfl, Modifiers.written_empty.magic⟩
  case methodDeclaration =>
    rw [List.mem_singleton.1 hmem]
    exact hfunction rfl ⟨rfl, magic_memberModifiers _⟩
  case anonymousFunctionCreationExpression =>
    rw [List.mem_singleton.1 hmem, closureOf, hpending]
    obtain ⟨hhead, hchildren⟩ := @bare_withSignature_none doc
      { kind := .function
        name := closureName
        location := locationOf doc tree
        modifiers := .anonymous ∪
          (if ((tree.childPhrase? .anonymousFunctionHeader).bind
            (·.childToken? .staticKeyword)).isSome then .isStatic else .empty) } rfl
      ⟨rfl, Modifiers.meets_union.2 ⟨by decide, by split <;> decide⟩⟩ state.resolver
      (tree.childPhrase? .anonymousFunctionHeader)
    exact forall_bare ⟨hhead.doc, hhead.magic⟩
      (List.forall_mem_append.2 ⟨hchildren, bare_of_mem_capturedBy⟩)
  case classDeclaration | interfaceDeclaration | traitDeclaration =>
    rw [List.mem_singleton.1 hmem]
    exact bare_openedClass hpending
  all_goals cases hdeclares

/-- Without a comment nothing that a phrase brings is documented. -/
theorem bare_of_mem_broughtBy {children : List Tree} (hpending : state.pending = none) :
    ∀ symbol ∈ broughtBy doc state kind (.phrase kind children), ∀ part ∈ symbol.preorder,
      Bare part := by
  intro symbol hmem
  cases brought_of_mem_broughtBy hmem with
  | mark _ hsymbol | target _ _ _ hsymbol =>
      rw [hsymbol]
      exact forall_mem_preorder_of_leaf rfl ⟨rfl, Modifiers.written_empty.magic⟩
  | clause _ _ _ _ hread =>
      exact forall_mem_preorder_of_leaf hread.children
        ⟨hread.doc, by rw [hread.modifiers]; decide⟩
  | declaration hdeclares _ => exact bare_of_declaresScope hpending hdeclares hmem
  | element _ _ hread _ =>
      rw [hpending] at hread
      exact hread.forall_bare

/-! ## Documented symbols -/

/-- The walk comes to a phrase while a comment waits, and the phrase brings the
symbol, or one that holds it. -/
structure Documents (doc : Document) (comment : Token) (kind : PhraseKind) (children : List Tree)
    (before : DeclarationState) (symbol : Symbol) : Prop where
  isComment : comment.kind = .documentComment
  visited : (declarationWalk doc).Visits doc.tree (start doc) (.phrase kind children) before
  waiting : before.pending =
    some (DocComment.parse (doc.tokenText comment), doc.tokenRange comment)
  brought : ∃ read ∈ broughtBy doc before kind (.phrase kind children), ∃ part ∈ read.preorder,
    ∃ below associated, symbol = { part with children := below, associated := associated }

/-- A part stands in a document inside of phrases below which the walk goes, and the walk comes
to it in the state `before`.  Of the leaves of what stands before the part, the comment is one,
and `between` are those behind it. -/
structure StandsBehind (doc : Document) (comment : Token) (between : List Tree)
    (layers : List Layer) (part : Tree) (before : DeclarationState) : Prop where
  place : doc.tree = Tree.wrap layers part
  descends : ∀ layer ∈ layers, (declarationWalk doc).descends layer.kind = true
  arrives : before = (declarationWalk doc).arrive layers part (start doc)
  leaves : ∃ front, (declarationWalk doc).leavesAll (Tree.earlierIn layers) =
    front ++ .token comment :: between

/-- The tokens of the document are those before the comment, the comment, those of the
leaves between, those of the part, and the rest. -/
theorem StandsBehind.tokens {comment : Token} {between : List Tree} {layers : List Layer}
    {part : Tree} {before : DeclarationState}
    (hstands : StandsBehind doc comment between layers part before) :
    ∃ front later, doc.tree.tokens = Tree.tokensAll front ++ comment ::
      (Tree.tokensAll between ++ (part.tokens ++ Tree.tokensAll later)) := by
  obtain ⟨front, hleaves⟩ := hstands.leaves
  refine ⟨front, Tree.laterIn layers, ?_⟩
  rw [hstands.place, Tree.tokens_wrap,
    ← Walk.tokensAll_leavesAll (declarationWalk doc) (Tree.earlierIn layers), hleaves]
  simp only [Tree.tokensAll_append, Tree.tokensAll, Tree.tokens, List.append_assoc,
    List.cons_append, List.nil_append]

/-- The comment that waits where the walk comes to a part, and what is between them. -/
theorem exists_comment_of_visits {part : Tree} {before : DeclarationState}
    (hvisits : (declarationWalk doc).Visits doc.tree (start doc) part before)
    {waiting : DocComment × Range} (hpending : before.pending = some waiting) :
    ∃ comment between layers, comment.kind = .documentComment ∧
      waiting = (DocComment.parse (doc.tokenText comment), doc.tokenRange comment) ∧
      StandsBehind doc comment between layers part before ∧ Quiet between := by
  obtain ⟨layers, hplace, hdescends, harrives⟩ := Walk.exists_layers_of_visits hvisits
  have hwaits : Waits doc ([] ++ (declarationWalk doc).leavesAll (Tree.earlierIn layers))
      ((declarationWalk doc).arrive layers part (start doc)).pending :=
    waits_arrive hdescends (waits_none [])
  rw [List.nil_append, ← harrives] at hwaits
  obtain ⟨front, comment, between, hleaves, hkind, hparsed, hquiet⟩ := hwaits waiting hpending
  exact ⟨comment, between, layers, hkind, hparsed,
    ⟨hplace, hdescends, harrives, front, hleaves⟩, hquiet⟩

end Reading

/-- The symbol has a documentation, or is declared by a comment only. -/
def Symbol.isDocumented (symbol : Symbol) : Bool :=
  symbol.doc.isSome || symbol.modifiers.containsAll .magic

open Reading in
/-- A documented symbol was read from a phrase for which a comment waited.  On its way from that
comment to the phrase the walk comes to the end of a statement, or to a brace, only inside
phrases that it passes over. -/
theorem SymbolTable.exists_comment_of_isDocumented (doc : Document) {symbol : Symbol}
    (hmem : symbol ∈ (ofDocument doc).symbols) (hdocumented : symbol.isDocumented = true) :
    ∃ comment between layers kind children before,
      Documents doc comment kind children before symbol ∧
      StandsBehind doc comment between layers (.phrase kind children) before ∧
      (∃ front later, doc.tree.tokens = Tree.tokensAll front ++ comment ::
        (Tree.tokensAll between ++ ((Tree.phrase kind children).tokens ++ Tree.tokensAll later))) ∧
      Quiet between := by
  have hlasting := @lasting_preorder (fun symbol => symbol.isDocumented = true →
    ∃ comment between layers kind children before,
      Documents doc comment kind children before symbol ∧
      StandsBehind doc comment between layers (.phrase kind children) before ∧
      Quiet between) (by
    intro owner below associated howner hdocumented
    obtain ⟨comment, between, layers, kind, children, before, hdocuments, hstands⟩ :=
      howner hdocumented
    obtain ⟨hkind, hvisited, hwaiting, read, hread, part, hpart, _, _, rfl⟩ := hdocuments
    exact ⟨comment, between, layers, kind, children, before,
      ⟨hkind, hvisited, hwaiting, read, hread, part, hpart, below, associated, rfl⟩, hstands⟩)
  have hbrought : ∀ kind children before,
      (declarationWalk doc).Visits doc.tree (DeclarationState.start doc)
        (.phrase kind children) before →
      ∀ read ∈ broughtBy doc before kind (.phrase kind children), ∀ part ∈ read.preorder,
        part.isDocumented = true → ∃ comment between layers kind children before,
          Documents doc comment kind children before part ∧
          StandsBehind doc comment between layers (.phrase kind children) before ∧
          Quiet between := by
    intro kind children before hvisits read hread part hpart hdocumented
    cases hpending : before.pending with
    | none =>
        -- Without a comment nothing is documented.
        have hbare := bare_of_mem_broughtBy hpending read hread part hpart
        have hmagic := Modifiers.containsAll_of_meets (by decide) hbare.magic
        rw [Symbol.isDocumented, hbare.doc, hmagic] at hdocumented
        cases hdocumented
    | some waiting =>
        obtain ⟨comment, between, layers, hkind, rfl, hstands⟩ :=
          exists_comment_of_visits hvisits hpending
        refine ⟨comment, between, layers, kind, children, before,
          ⟨hkind, hvisits, hpending, read, hread, part, hpart, part.children, part.associated,
            ?_⟩, hstands⟩
        cases part
        rfl
  obtain ⟨child, hchild, hbelow⟩ := Symbol.mem_preorderAll_iff.1 hmem
  obtain ⟨comment, between, layers, kind, children, before, hdocuments, hstands, hquiet⟩ :=
    forall_mem_root_children hlasting hbrought child hchild symbol hbelow hdocumented
  exact ⟨comment, between, layers, kind, children, before, hdocuments, hstands, hstands.tokens,
    hquiet⟩

/-- A comment, a use declaration, and a function. -/
def useDocument : Document :=
  Snippet.document "a" "<?php /** d */ use A; function f() \x7b\x7d"
    [Snippet.docComment "/** d */", Snippet.useDeclaration ["A"], Snippet.function "f" [] none []]

open Reading in
/-- The function has the text of the comment that stands before the use declaration. -/
theorem SymbolTable.exists_comment_of_isDocumented_use :
    ∃ symbol ∈ (ofDocument useDocument).symbols, symbol.name = "f" ∧
      symbol.doc = some ⟨"d", ""⟩ ∧ symbol.isDocumented = true ∧
      ∃ comment between layers kind children before,
        Documents useDocument comment kind children before symbol ∧
        StandsBehind useDocument comment between layers (.phrase kind children) before ∧
        (∃ front later, useDocument.tree.tokens = Tree.tokensAll front ++ comment ::
          (Tree.tokensAll between ++
            ((Tree.phrase kind children).tokens ++ Tree.tokensAll later))) ∧
        Quiet between := by
  have hfound : ∃ symbol ∈ (ofDocument useDocument).symbols, symbol.name = "f" ∧
      symbol.doc = some ⟨"d", ""⟩ ∧ symbol.isDocumented = true := by
    decide +kernel
  obtain ⟨symbol, hmem, hname, hdoc, hdocumented⟩ := hfound
  exact ⟨symbol, hmem, hname, hdoc, hdocumented,
    exists_comment_of_isDocumented useDocument hmem hdocumented⟩

/-- The only comment stands before the end of a statement, and documents the
function behind it. -/
theorem SymbolTable.documents_behind_statement :
    ∃ symbol ∈ (ofDocument useDocument).symbols, symbol.doc = some ⟨"d", ""⟩ ∧
      ∃ declaration ∈ useDocument.tree.parts,
        symbol.location = Reading.locationOf useDocument declaration ∧
        useDocument.tree.tokens = useDocument.tree.tokens.take 5 ++ declaration.tokens ∧
        (useDocument.tree.tokens.take 5).map (·.kind) =
          [.openTag, .documentComment, .useKeyword, .plainName, .semicolon] ∧
        ∀ leaf ∈ declaration.tokens, leaf.kind ≠ .documentComment := by
  decide +kernel

end SymbolIndex
