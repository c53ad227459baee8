import SymbolIndex.Proofs.Reading.Arrivals

/-!
# Marks among the symbols

Only namespaces and use declarations set the context in which names are resolved,
and only they bring marks.  Any other step leaves the context and adds no mark, so
it keeps the marks at the root in order, and what context they give.  It is the
end of a namespace in braces that changes the context without a mark.
-/

namespace SymbolIndex.Reading

open SymbolIndex.Tree
open SymbolTable (extendContext)

variable {doc : Document}

/-! ## Phrases and contexts -/

def setsContext : PhraseKind → Bool
  | .namespaceDefinition | .namespaceUseDeclaration => true
  | _ => false

/-- Phrases at which marks are located. -/
def isMarked : PhraseKind → Bool
  | .namespaceDefinition => true
  | kind => isUseClause kind

/-- A namespace in braces. -/
def isBlock (tree : Tree) : Bool :=
  tree.isPhrase .namespaceDefinition && (tree.childPhrase? .compoundStatement).isSome

/-! ## What steps do to the context -/

/-- The context in which the walk resolves names. -/
def DeclarationState.context (state : DeclarationState) : ImportContext :=
  ⟨state.resolver.namespaceName, state.resolver.imports⟩

section

variable {state : DeclarationState} {kind : PhraseKind} {tree : Tree} {children : List Tree}

theorem context_addChild (state : DeclarationState) (symbol : Symbol) :
    (state.addChild symbol).context = state.context := by
  rw [DeclarationState.context, DeclarationState.resolver_addChild]
  rfl

theorem context_addChildren (state : DeclarationState) (symbols : List Symbol) :
    (state.addChildren symbols).context = state.context := by
  rw [DeclarationState.addChildren]
  induction symbols generalizing state with
  | nil => rfl
  | cons symbol rest ih => rw [List.foldl_cons, ih, context_addChild]

theorem context_closeSymbol (state : DeclarationState) :
    state.closeSymbol.context = state.context := by
  rw [DeclarationState.context, resolver_closeSymbol]
  rfl

/-- Only namespaces and imports change the context where they are entered. -/
theorem context_enterDeclaration (hplain : setsContext kind = false) :
    (enterDeclaration doc kind tree state).context = state.context := by
  cases kind
  case namespaceDefinition | namespaceUseDeclaration => cases hplain
  case constDeclaration | propertyDeclaration | classConstDeclaration | functionCallExpression =>
    exact context_addChildren _ _
  case traitUseClause =>
    rw [enterDeclaration, useTraits]
    split
    · split
      all_goals rfl
    · rfl
  case simpleAssignmentExpression | byRefAssignmentExpression | compoundAssignmentExpression |
      foreachKey | foreachValue =>
    rw [enterDeclaration]
    unfold declareTargets
    split
    · exact context_addChildren _ _
    · rfl
  case catchClause =>
    rw [enterDeclaration, declareCaught]
    split
    · rfl
    · exact context_addChild _ _
  all_goals rfl

/-- Only the end of a namespace in braces changes the context. -/
theorem context_leaveDeclaration (hplain : isBlock (.phrase kind children) = false) :
    (leaveDeclaration kind (.phrase kind children) state).context = state.context := by
  cases kind
  case functionDeclaration | methodDeclaration | anonymousFunctionCreationExpression =>
    exact context_closeSymbol state
  case namespaceDefinition =>
    have hbare : ((Tree.phrase .namespaceDefinition children).childPhrase?
        .compoundStatement).isSome = false := hplain
    rw [leaveDeclaration, hbare, if_neg Bool.false_ne_true]
  all_goals rfl

/-- Only namespaces and use declarations bring marks. -/
theorem isMark_of_mem_broughtBy (hplain : setsContext kind = false) :
    ∀ symbol ∈ broughtBy doc state kind (.phrase kind children), symbol.isMark = false := by
  intro symbol hmem
  cases brought_of_mem_broughtBy hmem with
  | mark hphrase _ | clause _ hphrase _ _ _ =>
      rw [hphrase] at hplain
      cases hplain
  | declaration _ hmirrors => exact Symbol.isMark_of_isDeclaration hmirrors.opens.declaration
  | element _ _ hread hkind =>
      refine Symbol.isMark_of_written (fun hmark => ?_) hread.modifiers
      rw [hmark] at hkind
      cases hkind
  | target _ _ _ hsymbol =>
      rw [hsymbol]
      exact Symbol.isMark_of_written nofun Modifiers.written_empty

theorem targetTokens_of_setsContext (hsets : setsContext kind = true) :
    targetTokens (.phrase kind children) = [] := by
  cases kind
  case namespaceDefinition | namespaceUseDeclaration => rfl
  all_goals cases hsets

/-- A mark is located at the namespace, or at a clause of the use declaration. -/
theorem exists_marked_of_mem_broughtBy {symbol : Symbol}
    (hmem : symbol ∈ broughtBy doc state kind (.phrase kind children))
    (hmark : symbol.isMark = true) :
    ∃ mark ∈ (Tree.phrase kind children).parts, mark.phraseKind?.any isMarked = true ∧
      symbol.location = locationOf doc mark := by
  cases hsets : setsContext kind with
  | false =>
      rw [isMark_of_mem_broughtBy hsets symbol hmem] at hmark
      cases hmark
  | true =>
      cases kind
      case namespaceDefinition =>
        rw [List.mem_singleton.1 hmem]
        exact ⟨_, self_mem_parts _, rfl, rfl⟩
      case namespaceUseDeclaration =>
        obtain ⟨clause, hclause, hkind, hread⟩ := exists_readFromClause hmem
        refine ⟨clause, hclause, ?_, hread.location⟩
        obtain ⟨given, hgiven, huse⟩ := (Option.any_eq_true _ _).1 hkind
        rw [hgiven]
        cases given
        case namespaceUseClause | namespaceUseGroupClause => rfl
        all_goals cases huse
      all_goals cases hsets

/-! ### Namespaces and imports -/

section

variable {clause : Tree} {symbol : Symbol} (hread : ReadFromClause doc clause symbol)
include hread

theorem ReadFromClause.isUse : symbol.isUse = true := by
  rw [Symbol.isUse, hread.modifiers]
  decide

theorem ReadFromClause.kind_ne : symbol.kind ≠ .localVariable ∧ symbol.kind ≠ .namespaceMark := by
  constructor
  all_goals
    intro hkind
    have himported := hread.kind
    rw [hkind] at himported
    cases himported

theorem extendContext_of_clause (context : ImportContext) :
    extendContext context symbol = ⟨context.namespaceName, context.imports ++ [symbol]⟩ := by
  rw [extendContext, if_neg hread.kind_ne.2, if_pos hread.isUse]

theorem declareImport_of_clause (hopened : state.opened = []) :
    declareImport state symbol =
      { state with
        resolver := { state.resolver with imports := state.resolver.imports ++ [symbol] }
        root := { state.root with children := state.root.children ++ [symbol] } } := by
  have hnew : DeclarationState.isKnownVariable state.root symbol = false := by
    rw [DeclarationState.isKnownVariable, beq_eq_false_iff_ne.2 hread.kind_ne.1, Bool.false_and]
  rw [declareImport, NameResolver.addImport, if_pos hread.isUse, DeclarationState.addChild, hopened]
  dsimp only
  rw [DeclarationState.withChild, hnew, if_neg Bool.false_ne_true]

end

/-- The imports of a declaration go to the root and to the context in order. -/
theorem foldl_declareImport {imports : List Symbol} (hopened : state.opened = [])
    (himports : ∀ symbol ∈ imports, ∃ clause, ReadFromClause doc clause symbol) :
    (imports.foldl declareImport state).opened = [] ∧
      (imports.foldl declareImport state).root.children = state.root.children ++ imports ∧
      (imports.foldl declareImport state).context =
        imports.foldl extendContext state.context := by
  induction imports generalizing state with
  | nil => exact ⟨hopened, (List.append_nil _).symm, rfl⟩
  | cons symbol rest ih =>
      obtain ⟨⟨clause, hread⟩, hrest⟩ := List.forall_mem_cons.1 himports
      have hdeclared := declareImport_of_clause hread hopened
      have hstill : (declareImport state symbol).opened = [] := by
        rw [hdeclared]
        exact hopened
      obtain ⟨hafter, hroot, hcontext⟩ := ih hstill hrest
      rw [List.foldl_cons, List.foldl_cons]
      refine ⟨hafter, ?_, ?_⟩
      · rw [hroot, hdeclared, List.append_assoc, List.singleton_append]
      · rw [hcontext, hdeclared, extendContext_of_clause hread]
        rfl

/-- At the top level, a phrase that sets the context adds its marks to the root. -/
theorem enter_of_setsContext (hsets : setsContext kind = true) (hopened : state.opened = []) :
    (enterDeclaration doc kind tree state).opened = [] ∧
      (enterDeclaration doc kind tree state).root.children =
        state.root.children ++ broughtBy doc state kind tree ∧
      (enterDeclaration doc kind tree state).context =
        (broughtBy doc state kind tree).foldl extendContext state.context := by
  cases kind
  case namespaceDefinition => exact ⟨hopened, rfl, rfl⟩
  case namespaceUseDeclaration =>
    have himports : ∀ symbol ∈ importsOf doc tree, ∃ clause, ReadFromClause doc clause symbol := by
      intro symbol hmem
      obtain ⟨clause, -, -, hread⟩ := exists_readFromClause hmem
      exact ⟨clause, hread⟩
    exact foldl_declareImport hopened himports
  all_goals cases hsets

/-! ## Plain steps -/

variable {after : DeclarationState}

/-- No open symbol is a mark, and those at the root are in order. -/
structure Orderly (state : DeclarationState) : Prop where
  opened : ∀ symbol ∈ state.opened, symbol.isMark = false
  marks : MarksInOrder state.root.children

/-- The marks at the root give the context, and no open symbol is one. -/
structure Rebuilds (state : DeclarationState) : Prop where
  opened : ∀ symbol ∈ state.opened, symbol.isMark = false
  context : state.root.children.foldl extendContext ⟨"", []⟩ = state.context

theorem lasting_plain : Lasting fun symbol => symbol.isMark = false :=
  lasting_of_same fun _ _ _ hplain => hplain

theorem all_token (hopened : ∀ symbol ∈ state.opened, symbol.isMark = false) (leaf : Token) :
    (declarationToken doc leaf state).All state.root.children (·.isMark = false) :=
  (DeclarationState.All.refl hopened).token leaf

/-- A phrase that sets no context adds no mark. -/
theorem all_enter (hopened : ∀ symbol ∈ state.opened, symbol.isMark = false)
    (hplain : setsContext kind = false) (children : List Tree) :
    (enterDeclaration doc kind (.phrase kind children) state).All state.root.children
      (·.isMark = false) :=
  (DeclarationState.All.refl hopened).enter lasting_plain (isMark_of_mem_broughtBy hplain)

theorem all_leave (hopened : ∀ symbol ∈ state.opened, symbol.isMark = false) (kind : PhraseKind)
    (tree : Tree) :
    (leaveDeclaration kind tree state).All state.root.children (·.isMark = false) :=
  (DeclarationState.All.refl hopened).leave lasting_plain kind tree

theorem Orderly.of_all (hstate : Orderly state)
    (hall : after.All state.root.children (·.isMark = false)) : Orderly after := by
  obtain ⟨⟨added, hroot, hadded⟩, hopened⟩ := hall
  refine ⟨hopened, ?_⟩
  rw [hroot]
  exact hstate.marks.append_plain hadded

theorem orderly_start : Orderly (DeclarationState.start doc) :=
  ⟨fun _ hmem => absurd hmem List.not_mem_nil, List.Pairwise.nil⟩

theorem rebuilds_start : Rebuilds (DeclarationState.start doc) :=
  ⟨fun _ hmem => absurd hmem List.not_mem_nil, rfl⟩

theorem Rebuilds.of_all (hstate : Rebuilds state)
    (hall : after.All state.root.children (·.isMark = false))
    (hcontext : after.context = state.context) : Rebuilds after := by
  obtain ⟨⟨added, hroot, hadded⟩, hopened⟩ := hall
  refine ⟨hopened, ?_⟩
  rw [hroot, List.foldl_append, foldl_extendContext_of_plain hadded, hstate.context, hcontext]

theorem context_declarationToken (leaf : Token) (state : DeclarationState) :
    (declarationToken doc leaf state).context = state.context := by
  rw [declarationToken]
  split
  all_goals rfl

end

end SymbolIndex.Reading
