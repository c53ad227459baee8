import SymbolIndex.Proofs.Reading.Comments

/-!
# Where scopes come from

A symbol of the kind of a function, method or class is not always one of a
declaration.  Imports have these kinds, too, and so have the methods that the
comment of a class declares.  The former are located at a clause, the latter at
the comment.
-/

namespace SymbolIndex.Reading

open SymbolIndex.Symbol

variable {doc : Document}

/-- What a symbol that is a scope was read from, where it was brought at a tree. -/
inductive ScopeOrigin (doc : Document) (tree : Tree) (symbol : Symbol) : Prop
  | declaration (hdeclaration : symbol.isDeclaration = true)
      (hdeclares : tree.phraseKind?.any declaresScope = true)
      (hlocation : symbol.location = locationOf doc tree)
  | clause (clause : Tree) (huse : tree.isPhrase .namespaceUseDeclaration = true)
      (hclause : clause ∈ tree.parts) (hkind : clause.phraseKind?.any isUseClause = true)
      (hlocation : symbol.location = locationOf doc clause)
  | comment (comment : Token) (hmem : comment ∈ doc.tree.tokens)
      (hkind : comment.kind = .documentComment)
      (hlocation : symbol.location = tokenLocation doc comment)

/-- If a comment waits, it is one of the document. -/
def HoldsComment (doc : Document) (state : DeclarationState) : Prop :=
  ∀ waiting, state.pending = some waiting → ∃ comment ∈ doc.tree.tokens,
    comment.kind = .documentComment ∧ waiting.2 = doc.tokenRange comment

/-- Wherever the walk comes to, a comment that waits is one of the document. -/
theorem holdsComment_of_visits {part : Tree} {before : DeclarationState}
    (hvisits : (declarationWalk doc).Visits doc.tree (DeclarationState.start doc) part before) :
    HoldsComment doc before := by
  intro waiting hpending
  obtain ⟨comment, between, layers, hkind, rfl, hstands, -⟩ :=
    exists_comment_of_visits hvisits hpending
  obtain ⟨front, later, htokens⟩ := hstands.tokens
  refine ⟨comment, ?_, hkind, rfl⟩
  rw [htokens]
  exact List.mem_append_right _ List.mem_cons_self

theorem holdsComment_start (doc : Document) : HoldsComment doc (DeclarationState.start doc) :=
  nofun

namespace HoldsComment

variable {state : DeclarationState} (hholds : HoldsComment doc state)
include hholds

theorem token {leaf : Token} (hmem : leaf ∈ doc.tree.tokens) :
    HoldsComment doc (declarationToken doc leaf state) := by
  rw [declarationToken]
  split
  case h_1 hkind =>
    intro waiting hwaiting
    obtain rfl := Option.some.inj hwaiting
    exact ⟨leaf, hmem, hkind, rfl⟩
  case h_2 | h_3 | h_4 => simp [HoldsComment]
  case h_5 => exact hholds

theorem enter (kind : PhraseKind) (tree : Tree) :
    HoldsComment doc (enterDeclaration doc kind tree state) := by
  intro waiting hwaiting
  rcases @pending_enterDeclaration doc kind tree state with hsame | hnone
  · exact hholds waiting (hsame ▸ hwaiting)
  · rw [hnone] at hwaiting
    cases hwaiting

theorem leave (kind : PhraseKind) (tree : Tree) :
    HoldsComment doc (leaveDeclaration kind tree state) := by
  intro waiting hwaiting
  rw [pending_leaveDeclaration] at hwaiting
  exact hholds waiting hwaiting

end HoldsComment

/-- Nothing but a leaf that is no scope. -/
structure PlainLeaf (symbol : Symbol) : Prop where
  kind : symbol.kind.isScope = false
  children : symbol.children = []

theorem PlainLeaf.origins {tree : Tree} {symbol : Symbol} (hleaf : PlainLeaf symbol) :
    ∀ part ∈ symbol.preorder, part.kind.isScope = true → ScopeOrigin doc tree part := by
  refine forall_mem_preorder_of_leaf hleaf.children fun hscope => ?_
  rw [hleaf.kind] at hscope
  cases hscope

theorem plainLeaf_of_isArgument {symbol : Symbol} (hargument : IsArgument symbol) :
    PlainLeaf symbol := by
  refine ⟨?_, hargument.leaf⟩
  have hvariable := hargument.isVariable
  cases hkind : symbol.kind
  case parameter | localVariable => rfl
  all_goals
    rw [hkind] at hvariable
    cases hvariable

theorem ReadFromElement.origins {tree element : Tree} {comment : Option DocComment}
    {symbol : Symbol} (hread : ReadFromElement doc element comment symbol)
    (hkind : symbol.kind.isScope = false) :
    ∀ part ∈ symbol.preorder, part.kind.isScope = true → ScopeOrigin doc tree part :=
  PlainLeaf.origins ⟨hkind, hread.children⟩

/-- What the comment of a class declares is located at the comment. -/
theorem origins_withComment {tree : Tree} {state : DeclarationState} {symbol : Symbol}
    (hnone : symbol.children = []) (hcomment : HoldsComment doc state) :
    ∀ child ∈ (withComment doc state symbol).children, ∀ part ∈ child.preorder,
      part.kind.isScope = true → ScopeOrigin doc tree part := by
  intro child hchild
  rw [withComment] at hchild
  split at hchild
  · rw [hnone] at hchild
    exact absurd hchild List.not_mem_nil
  · rename_i parsed range hpending
    obtain ⟨comment, hmem, hkind, rfl⟩ := hcomment _ hpending
    rw [hnone, List.nil_append] at hchild
    rcases List.mem_append.1 hchild with hproperty | hmethod
    · obtain ⟨tag, -, rfl⟩ := List.mem_map.1 hproperty
      exact PlainLeaf.origins ⟨rfl, rfl⟩
    · obtain ⟨tag, -, rfl⟩ := List.mem_map.1 hmethod
      refine forall_mem_preorder_iff.2 ⟨fun _ => .comment comment hmem hkind rfl, ?_⟩
      intro parameter hparameter
      obtain ⟨given, -, rfl⟩ := List.mem_map.1 hparameter
      exact PlainLeaf.origins ⟨rfl, rfl⟩

/-- Scopes below what a declaration opens come from its comment. -/
theorem origins_of_declaresScope {kind : PhraseKind} {tree : Tree} {before : DeclarationState}
    {symbol : Symbol} (hcomment : HoldsComment doc before) (hdeclares : declaresScope kind = true)
    (hmem : symbol ∈ broughtBy doc before kind tree) :
    ∀ child ∈ symbol.children, ∀ part ∈ child.preorder, part.kind.isScope = true →
      ScopeOrigin doc tree part := by
  have hfunction : (∀ child ∈ symbol.children, IsArgument child) →
      ∀ child ∈ symbol.children, ∀ part ∈ child.preorder, part.kind.isScope = true →
        ScopeOrigin doc tree part := fun harguments child hchild =>
    (plainLeaf_of_isArgument (harguments child hchild)).origins
  cases kind
  case functionDeclaration | methodDeclaration =>
    apply hfunction
    rw [List.mem_singleton.1 hmem]
    exact isArgument_of_withSignature rfl
  case anonymousFunctionCreationExpression =>
    apply hfunction
    rw [List.mem_singleton.1 hmem]
    exact List.forall_mem_append.2 ⟨isArgument_of_withSignature rfl, isArgument_of_mem_capturedBy⟩
  case classDeclaration | interfaceDeclaration | traitDeclaration =>
    rw [List.mem_singleton.1 hmem]
    exact origins_withComment rfl hcomment
  all_goals cases hdeclares

/-- Every scope that a phrase brings was read from the phrase, or from its comment. -/
theorem origins_of_mem_broughtBy {kind : PhraseKind} {children : List Tree}
    {before : DeclarationState} (hcomment : HoldsComment doc before) :
    ∀ symbol ∈ broughtBy doc before kind (.phrase kind children), ∀ part ∈ symbol.preorder,
      part.kind.isScope = true → ScopeOrigin doc (.phrase kind children) part := by
  intro symbol hmem
  cases brought_of_mem_broughtBy hmem with
  | mark _ hsymbol | target _ _ _ hsymbol =>
      rw [hsymbol]
      exact PlainLeaf.origins ⟨rfl, rfl⟩
  | clause clause hphrase hclause huse hread =>
      exact forall_mem_preorder_of_leaf hread.children fun _ =>
        .clause clause (by rw [hphrase]; rfl) hclause huse hread.location
  | declaration hdeclares hmirrors =>
      exact forall_mem_preorder_iff.2
        ⟨fun _ => .declaration hmirrors.opens.declaration hdeclares hmirrors.location,
          origins_of_declaresScope hcomment hdeclares hmem⟩
  | element _ _ hread hkind => exact hread.origins (isScope_of_isElement hkind)

/-- Every scope of a document is a declaration, or was read from a use clause or a comment. -/
theorem scopeOrigin_of_mem_preorderAll :
    ∀ symbol ∈ preorderAll (SymbolTable.ofDocument doc).root.children,
      symbol.kind.isScope = true → ∃ tree ∈ doc.tree.parts, ScopeOrigin doc tree symbol := by
  have hlasting := @lasting_preorder (fun symbol => symbol.kind.isScope = true →
      ∃ tree ∈ doc.tree.parts, ScopeOrigin doc tree symbol) (by
    intro owner children associated howner hscope
    obtain ⟨tree, htree, horigin⟩ := howner hscope
    refine ⟨tree, htree, ?_⟩
    cases horigin with
    | declaration hdeclaration hdeclares hlocation =>
        exact .declaration hdeclaration hdeclares hlocation
    | clause clause huse hclause hkind hlocation =>
        exact .clause clause huse hclause hkind hlocation
    | comment comment hmem hkind hlocation => exact .comment comment hmem hkind hlocation)
  intro symbol hmem
  obtain ⟨child, hchild, hbelow⟩ := mem_preorderAll_iff.1 hmem
  refine forall_mem_root_children hlasting ?_ child hchild symbol hbelow
  intro kind children before hvisits brought hbrought part hpart hscope
  exact ⟨_, hvisits.mem_parts,
    origins_of_mem_broughtBy (holdsComment_of_visits hvisits) brought hbrought part hpart hscope⟩

end SymbolIndex.Reading
