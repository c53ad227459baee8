import SymbolIndex.Proofs.Reading.Entries

/-!
# How the symbol of a declaration is built

A phrase that is no declaration adds children to the innermost open symbol, gives
it traits, or marks a namespace at the root.  A declaration puts its symbol on
the stack and takes it off again.  So on the way through the tree of a
declaration its symbol stays where it is, those below it do not change at all,
and when the walk leaves the tree the symbol has all that was declared inside.
-/

namespace SymbolIndex.Reading

open SymbolIndex.Symbol

variable {doc : Document}

/-! ## What phrases do that are no declarations -/

/-- The property outlives all that is done to the symbols besides opening and closing them. -/
structure Additive (P : DeclarationState → Prop) : Prop where
  congr : ∀ state other : DeclarationState, other.root = state.root →
    other.opened = state.opened → P state → P other
  child : ∀ state symbol, P state → P (state.addChild symbol)
  mark : ∀ (state : DeclarationState) symbol, symbol.kind = .namespaceMark →
    symbol.children = [] → P state →
    P { state with root := { state.root with children := state.root.children ++ [symbol] } }
  traits : ∀ (state : DeclarationState) top rest associated, state.opened = top :: rest →
    P state → P { state with opened := { top with associated := associated } :: rest }

namespace Additive

variable {P : DeclarationState → Prop} {state : DeclarationState} {kind : PhraseKind} {tree : Tree}
  (hadditive : Additive P)
include hadditive

theorem token (hstate : P state) (leaf : Token) : P (declarationToken doc leaf state) := by
  apply hadditive.congr state _ _ _ hstate
  all_goals
    rw [declarationToken]
    split
    all_goals rfl

theorem children (symbols : List Symbol) (hstate : P state) : P (state.addChildren symbols) := by
  rw [DeclarationState.addChildren]
  induction symbols generalizing state with
  | nil => exact hstate
  | cons symbol rest ih =>
      apply ih
      exact hadditive.child state symbol hstate

theorem imports (symbols : List Symbol) (hstate : P state) :
    P (symbols.foldl declareImport state) := by
  induction symbols generalizing state with
  | nil => exact hstate
  | cons symbol rest ih =>
      apply ih
      apply hadditive.child
      exact hadditive.congr state _ rfl rfl hstate

theorem useTraits (hstate : P state) : P (useTraits doc tree state) := by
  rw [Reading.useTraits]
  split
  · rename_i top rest hopened
    split
    · exact hadditive.traits state top rest _ hopened hstate
    · exact hstate
  · exact hstate

theorem declareTargets (target? : Option Tree) (hstate : P state) :
    P (declareTargets doc target? state) := by
  cases target? with
  | none => exact hstate
  | some target => exact hadditive.children _ hstate

theorem declareCaught (hstate : P state) : P (declareCaught doc tree state) := by
  rw [Reading.declareCaught]
  split
  · exact hstate
  · exact hadditive.child state _ hstate

/-- Phrases that declare no scope only add to what there is. -/
theorem enter (hplain : declaresScope kind = false) (hstate : P state) :
    P (enterDeclaration doc kind tree state) := by
  have htaken : P { state with pending := none } := hadditive.congr state _ rfl rfl hstate
  cases kind
  case namespaceDefinition =>
    apply hadditive.congr _ _ _ _ (hadditive.mark state (namespaceMarkOf doc tree) rfl rfl hstate)
    · rfl
    · rfl
  case namespaceUseDeclaration => exact hadditive.imports _ hstate
  case constDeclaration | propertyDeclaration | classConstDeclaration =>
    exact hadditive.children _ htaken
  case traitUseClause => exact hadditive.useTraits hstate
  case functionCallExpression => exact hadditive.children _ hstate
  case simpleAssignmentExpression | byRefAssignmentExpression | compoundAssignmentExpression |
      foreachKey | foreachValue => exact hadditive.declareTargets _ hstate
  case catchClause => exact hadditive.declareCaught hstate
  -- The others are declarations, or nothing that is read.
  all_goals
    first
    | exact hstate
    | cases hplain

theorem leave (hplain : declaresScope kind = false) (hstate : P state) :
    P (leaveDeclaration kind tree state) := by
  cases kind
  case namespaceDefinition =>
    rw [leaveDeclaration]
    split
    · exact hadditive.congr state _ rfl rfl hstate
    · exact hstate
  all_goals
    first
    | exact hstate
    | cases hplain

end Additive

/-! ## What declarations do -/

section

variable {kind : PhraseKind} {tree : Tree} {state : DeclarationState}
  (hdeclares : declaresScope kind = true)
include hdeclares

/-- A declaration opens a symbol that mirrors it. -/
theorem exists_opened_enter : ∃ symbol, Mirrors doc kind tree state symbol ∧
    (enterDeclaration doc kind tree state).root = state.root ∧
    (enterDeclaration doc kind tree state).opened = symbol :: state.opened := by
  have hmirrors : ∀ {symbol : Symbol}, symbol ∈ broughtBy doc state kind tree →
      Mirrors doc kind tree state symbol := mirrors_of_mem_broughtBy hdeclares
  cases kind
  case functionDeclaration | methodDeclaration | anonymousFunctionCreationExpression |
      classDeclaration | interfaceDeclaration | traitDeclaration =>
    exact ⟨_, hmirrors List.mem_cons_self, rfl, rfl⟩
  all_goals cases hdeclares

theorem leave_of_declaresScope :
    (leaveDeclaration kind tree state).root = state.closeSymbol.root ∧
      (leaveDeclaration kind tree state).opened = state.closeSymbol.opened := by
  cases kind
  case functionDeclaration | methodDeclaration | anonymousFunctionCreationExpression |
      classDeclaration | interfaceDeclaration | traitDeclaration => exact ⟨rfl, rfl⟩
  all_goals cases hdeclares

theorem descends_of_declaresScope : descendsForDeclarations kind = true := by
  have hhides := hidesDeclarations_of_declaresScope hdeclares
  rwa [hidesDeclarations_eq, Bool.not_eq_false'] at hhides

end

/-! ## Open symbols -/

theorem sameHead_withChild (owner child : Symbol) :
    owner.SameHead (DeclarationState.withChild owner child) := by
  rw [DeclarationState.withChild]
  split
  · exact SameHead.refl owner
  · exact ⟨rfl, rfl, rfl, rfl, rfl⟩

theorem doc_withChild (owner child : Symbol) :
    (DeclarationState.withChild owner child).doc = owner.doc := by
  rw [DeclarationState.withChild]
  split
  · rfl
  · rfl

/-- While a symbol is open its head does not change. -/
theorem additive_opened {Q : Symbol → Prop}
    (hhead : ∀ before after : Symbol, before.SameHead after → Q before → Q after) :
    Additive fun state => ∀ owner ∈ state.opened, Q owner where
  congr state other _ hopened hstate := hopened ▸ hstate
  child state symbol hstate := by
    rw [DeclarationState.addChild]
    split
    · exact hstate
    · rename_i top rest hopened
      rw [hopened, List.forall_mem_cons] at hstate
      exact List.forall_mem_cons.2
        ⟨hhead top _ (sameHead_withChild top symbol) hstate.1, hstate.2⟩
  mark _ _ _ _ hstate := hstate
  traits state top rest associated hopened hstate := by
    rw [hopened, List.forall_mem_cons] at hstate
    exact List.forall_mem_cons.2 ⟨hhead top _ ⟨rfl, rfl, rfl, rfl, rfl⟩ hstate.1, hstate.2⟩

theorem DeclarationState.Opens.isScope {state : DeclarationState} {symbol : Symbol}
    (hopens : state.Opens symbol) : symbol.kind.isScope = true := by
  have hdeclaration := hopens.declaration
  rw [isDeclaration, Bool.and_eq_true, Bool.and_eq_true] at hdeclaration
  exact hdeclaration.1.1

/-- Wherever the walk comes to, only scopes are open. -/
theorem isScope_of_mem_opened {part : Tree} {before : DeclarationState}
    (hvisits : (declarationWalk doc).Visits doc.tree (DeclarationState.start doc) part before) :
    ∀ owner ∈ before.opened, owner.kind.isScope = true := by
  have hadditive : Additive fun state => ∀ owner ∈ state.opened, owner.kind.isScope = true :=
    additive_opened fun before after hhead hscope => by rwa [hhead.kind]
  apply Walk.KeepsAt.visits hvisits
  · constructor
    · intro leaf state _ hstate
      exact hadditive.token hstate leaf
    · intro kind children state _ hstate
      cases hdeclares : declaresScope kind with
      | false => exact hadditive.enter hdeclares hstate
      | true =>
          obtain ⟨symbol, hmirrors, -, hopened⟩ :=
            @exists_opened_enter doc kind (.phrase kind children) state hdeclares
          intro owner howner
          have hentered : owner ∈ symbol :: state.opened := hopened ▸ howner
          rcases List.mem_cons.1 hentered with rfl | hbelow
          · exact hmirrors.opens.isScope
          · exact hstate owner hbelow
    · intro kind children state _ hstate
      cases hdeclares : declaresScope kind with
      | false => exact hadditive.leave hdeclares hstate
      | true =>
          obtain ⟨hroot, hopened⟩ :=
            @leave_of_declaresScope kind (.phrase kind children) state hdeclares
          apply hadditive.congr state.closeSymbol _ hroot hopened
          rw [DeclarationState.closeSymbol]
          split
          · exact hstate
          · rename_i top rest htop
            apply hadditive.child
            rw [htop, List.forall_mem_cons] at hstate
            exact hstate.2
  · simp [DeclarationState.start]

/-! ## On the way through a declaration -/

/-- The innermost open symbol has been added to, and namespaces have been marked; all else is as
it was. -/
structure BuildsOn (top : Symbol) (rest base : List Symbol) (state : DeclarationState) : Prop where
  opened : ∃ now, state.opened = now :: rest ∧ top.SameHead now ∧ now.doc = top.doc
  root : ∃ marks, state.root.children = base ++ marks ∧
    ∀ mark ∈ marks, mark.kind = .namespaceMark ∧ mark.children = []

variable {top : Symbol} {rest base : List Symbol}

theorem BuildsOn.refl {state : DeclarationState} (hopened : state.opened = top :: rest) :
    BuildsOn top rest state.root.children state where
  opened := ⟨top, hopened, SameHead.refl top, rfl⟩
  root := ⟨[], by simp, by simp⟩

/-- All that is no declaration builds on the innermost open symbol. -/
theorem additive_buildsOn (top : Symbol) (rest base : List Symbol) :
    Additive (BuildsOn top rest base) where
  congr state other hroot hopened hstate :=
    ⟨hopened ▸ hstate.opened, hroot ▸ hstate.root⟩
  child state symbol hstate := by
    obtain ⟨now, hopened, hhead, hdoc⟩ := hstate.opened
    rw [DeclarationState.addChild, hopened]
    exact ⟨⟨_, rfl, hhead.trans (sameHead_withChild now symbol),
      (doc_withChild now symbol).trans hdoc⟩, hstate.root⟩
  mark state symbol hkind hnone hstate := by
    obtain ⟨marks, hroot, hmarks⟩ := hstate.root
    refine ⟨hstate.opened, marks ++ [symbol], ?_, ?_⟩
    · simp [hroot]
    · exact List.forall_mem_append.2 ⟨hmarks, List.forall_mem_singleton.2 ⟨hkind, hnone⟩⟩
  traits state first others associated hopened hstate := by
    obtain ⟨now, hnow, hhead, hdoc⟩ := hstate.opened
    obtain ⟨rfl, rfl⟩ := List.cons.inj (hopened.symm.trans hnow)
    exact ⟨⟨_, rfl, hhead.trans ⟨rfl, rfl, rfl, rfl, rfl⟩, hdoc⟩, hstate.root⟩

/-- Whatever the walk goes through, it builds on. -/
def KeepsBuilding (before after : DeclarationState) : Prop :=
  ∀ top rest base, BuildsOn top rest base before → BuildsOn top rest base after

/-- What a declaration holds has become one more child at its end. -/
theorem keepsBuilding_close {kind : PhraseKind} {tree : Tree} {state inside : DeclarationState}
    (hdeclares : declaresScope kind = true)
    (hinside : KeepsBuilding (enterDeclaration doc kind tree state) inside) :
    KeepsBuilding state (leaveDeclaration kind tree inside) := by
  intro top rest base hstate
  obtain ⟨symbol, -, hroot, hopened⟩ := @exists_opened_enter doc kind tree state hdeclares
  obtain ⟨now, hnow, hnowSame⟩ := hstate.opened
  rw [hnow] at hopened
  have hentered : BuildsOn symbol (now :: rest) base (enterDeclaration doc kind tree state) :=
    ⟨⟨symbol, hopened, SameHead.refl symbol, rfl⟩, hroot ▸ hstate.root⟩
  have hbuilt := hinside symbol (now :: rest) base hentered
  obtain ⟨built, hbuiltOpened, -⟩ := hbuilt.opened
  obtain ⟨hleftRoot, hleftOpened⟩ := @leave_of_declaresScope kind tree inside hdeclares
  -- Once the symbol is off the stack, it is added as a child.
  have hbelow : BuildsOn top rest base { inside with opened := now :: rest } :=
    ⟨⟨now, rfl, hnowSame⟩, hbuilt.root⟩
  apply (additive_buildsOn top rest base).congr _ _ _ _
    ((additive_buildsOn top rest base).child _ built hbelow)
  · rw [hleftRoot, DeclarationState.closeSymbol, hbuiltOpened]
  · rw [hleftOpened, DeclarationState.closeSymbol, hbuiltOpened]

/-- The walk builds on whatever it finds open. -/
theorem declarationWalk_relates_keepsBuilding (doc : Document) :
    (declarationWalk doc).Relates (fun _ => KeepsBuilding) (fun _ => KeepsBuilding) where
  token leaf state := by
    intro top rest base hstate
    exact (additive_buildsOn top rest base).token hstate leaf
  passed kind children state hpasses := by
    intro top rest base hstate
    apply (additive_buildsOn top rest base).enter _ hstate
    cases hdeclares : declaresScope kind with
    | false => rfl
    | true => exact absurd (descends_of_declaresScope hdeclares) (Bool.eq_false_iff.1 hpasses)
  phrase kind children state inside hdescends hinside := by
    cases hdeclares : declaresScope kind with
    | false =>
        intro top rest base hstate
        have hadditive := additive_buildsOn top rest base
        exact hadditive.leave hdeclares (hinside top rest base (hadditive.enter hdeclares hstate))
    | true => exact keepsBuilding_close hdeclares hinside
  nil state := fun _ _ _ hstate => hstate
  cons tree others state next last hfirst hrest :=
    fun top rest base hstate => hrest top rest base (hfirst top rest base hstate)

/-! ## The symbol that is built -/

/-- The symbol of a declaration with all that is declared inside, as it is when the walk leaves the
declaration that it entered in the state `before`. -/
def builtFrom? (doc : Document) (kind : PhraseKind) (children : List Tree)
    (before : DeclarationState) : Option Symbol :=
  ((declarationWalk doc).runAll children
    (enterDeclaration doc kind (.phrase kind children) before)).opened.head?

/-- At the end of a declaration its symbol is added to what there was before, save that inside
namespaces may have been marked. -/
structure Adds (doc : Document) (kind : PhraseKind) (children : List Tree)
    (before around : DeclarationState) (symbol : Symbol) : Prop where
  built : builtFrom? doc kind children before = some symbol
  declared : declaredKind? kind (declaredName doc kind (.phrase kind children)) = some symbol.kind
  location : symbol.location = locationOf doc (.phrase kind children)
  documented : ∀ opened ∈ (enterDeclaration doc kind (.phrase kind children) before).opened.head?,
    symbol.doc = opened.doc
  marked : ∃ marks, around.root.children = before.root.children ++ marks ∧
    ∀ mark ∈ marks, mark.kind = .namespaceMark ∧ mark.children = []
  opened : around.opened = before.opened
  root_run : ((declarationWalk doc).run (.phrase kind children) before).root =
    (around.addChild symbol).root
  opened_run : ((declarationWalk doc).run (.phrase kind children) before).opened =
    (around.addChild symbol).opened

/-- A declaration adds its symbol, built from all that is declared inside. -/
theorem exists_adds {kind : PhraseKind} (hdeclares : declaresScope kind = true)
    (children : List Tree) (before : DeclarationState) :
    ∃ around symbol, Adds doc kind children before around symbol := by
  obtain ⟨symbol, hmirrors, hroot, hopened⟩ :=
    @exists_opened_enter doc kind (.phrase kind children) before hdeclares
  have hdescends : (declarationWalk doc).descends kind = true :=
    descends_of_declaresScope hdeclares
  have hrun : (declarationWalk doc).run (.phrase kind children) before =
      leaveDeclaration kind (.phrase kind children) ((declarationWalk doc).runAll children
        (enterDeclaration doc kind (.phrase kind children) before)) := by
    rw [Walk.run, if_pos hdescends]
    rfl
  have hbuilt := (declarationWalk_relates_keepsBuilding doc).runAll children _ _ _ _
    (BuildsOn.refl hopened)
  have hlast : builtFrom? doc kind children before =
      ((declarationWalk doc).runAll children
        (enterDeclaration doc kind (.phrase kind children) before)).opened.head? := rfl
  revert hrun hbuilt hlast
  generalize (declarationWalk doc).runAll children
    (enterDeclaration doc kind (.phrase kind children) before) = inside
  intro hrun hbuilt hlast
  obtain ⟨built, hbuiltOpened, hhead, hdoc⟩ := hbuilt.opened
  obtain ⟨hleftRoot, hleftOpened⟩ :=
    @leave_of_declaresScope kind (.phrase kind children) inside hdeclares
  refine ⟨{ inside with opened := before.opened }, built, ?_⟩
  constructor
  · rw [hlast, hbuiltOpened]
    rfl
  · rw [hmirrors.declared, hhead.kind]
  · rw [hhead.location, hmirrors.location]
  · intro opened hmem
    rw [hopened] at hmem
    rw [hdoc, Option.some.inj hmem]
  · rw [← hroot]
    exact hbuilt.root
  · rfl
  · rw [hrun, hleftRoot, DeclarationState.closeSymbol, hbuiltOpened]
  · rw [hrun, hleftOpened, DeclarationState.closeSymbol, hbuiltOpened]

end SymbolIndex.Reading
