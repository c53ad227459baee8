import SymbolIndex.Proofs.Reading.Edits
import SymbolIndex.Proofs.Reading.Walk
import SymbolIndex.Proofs.VariableTable.Levels
import SymbolIndex.Reading.Declarations
import SymbolIndex.Tree.Snippet

/-!
# Stacks of the walk over uses

Reading uses keeps five stacks: frames, scopes, declarations, classes and levels
of variables.  Each is pushed where a phrase is entered and popped where it is
left, save that a clause of a conditional swaps the branch that its statement
has opened.  So in a tree whose clauses stand in their statements the stacks are
as high after a part of the tree as before it, and a function leaves the
variables around it as they were.
-/

namespace SymbolIndex

/-! ## Clauses in their statements -/

namespace Tree

/-- The nearest branch or declaration around a place of a tree, told apart as
far as clauses care. -/
inductive Surroundings where
  | conditional
  | choice
  | other
  deriving DecidableEq

/-- The surroundings of what stands directly below a phrase. -/
def surroundingsBelow (around : Surroundings) : PhraseKind → Surroundings
  | .ifStatement => .conditional
  | .switchStatement => .choice
  | .elseIfClause | .elseClause | .caseStatement | .defaultStatement | .functionDeclaration
  | .methodDeclaration | .anonymousFunctionCreationExpression | .classDeclaration
  | .interfaceDeclaration | .traitDeclaration => .other
  | _ => around

/-- The clauses of an `if` stand in one, and those of a `switch` in one. -/
def mayStandIn (around : Surroundings) : PhraseKind → Bool
  | .elseIfClause | .elseClause => around == .conditional
  | .caseStatement | .defaultStatement => around == .choice
  | _ => true

mutual

def clausesInPlace (around : Surroundings) : Tree → Bool
  | token _ => true
  | phrase kind children =>
    mayStandIn around kind && clausesInPlaceAll (surroundingsBelow around kind) children

def clausesInPlaceAll (around : Surroundings) : List Tree → Bool
  | [] => true
  | tree :: rest => clausesInPlace around tree && clausesInPlaceAll around rest

end

theorem clausesInPlaceAll_append (around : Surroundings) (left right : List Tree) :
    clausesInPlaceAll around (left ++ right) =
      (clausesInPlaceAll around left && clausesInPlaceAll around right) := by
  induction left with
  | nil => rfl
  | cons tree rest ih => rw [List.cons_append, clausesInPlaceAll, clausesInPlaceAll, ih,
      Bool.and_assoc]

/-- A function, a method or a closure. -/
def isFunction : Tree → Bool
  | phrase .functionDeclaration _ | phrase .methodDeclaration _
  | phrase .anonymousFunctionCreationExpression _ => true
  | _ => false

end Tree

namespace Reading

open VariableTable

/-- The five stacks are as high as before.  Contexts and classes are the very
ones, frames are of the same phrases, and what is outside the innermost scope of
variables is untouched. -/
structure UseState.SameStacks (before after : UseState) : Prop where
  frames : after.frames.map (·.kind) = before.frames.map (·.kind)
  scopes : after.outer.length = before.outer.length
  contexts : after.contexts = before.contexts
  classes : after.resolver.classes = before.resolver.classes
  levels : LevelsAgree before.varTypes.levels after.varTypes.levels

namespace UseState.SameStacks

variable {before state : UseState}

theorem refl (state : UseState) : state.SameStacks state where
  frames := rfl
  scopes := rfl
  contexts := rfl
  classes := rfl
  levels := LevelsAgree.refl _

theorem trans {after : UseState} (hleft : before.SameStacks state)
    (hright : state.SameStacks after) : before.SameStacks after where
  frames := hright.frames.trans hleft.frames
  scopes := hright.scopes.trans hleft.scopes
  contexts := hright.contexts.trans hleft.contexts
  classes := hright.classes.trans hleft.classes
  levels := hleft.levels.trans hright.levels

/-! ### Edits move no stack -/

theorem pushPart (hstate : before.SameStacks state) (part : Part) :
    before.SameStacks (state.pushPart part) := by
  rw [UseState.pushPart]
  split
  · exact hstate
  · rename_i frame rest hframes
    have hsame := hstate.frames
    rw [hframes] at hsame
    exact ⟨hsame, hstate.scopes, hstate.contexts, hstate.classes, hstate.levels⟩

/-- Edits move no stack, save for those that move levels. -/
theorem of_edits {allowed : Allowed} {parts : List Part}
    (hedits : before.Edits allowed parts state) (hlevels : ¬ allowed.levels) :
    before.SameStacks state := by
  induction hedits with
  | refl => exact refl before
  | emit _ _ ih | patchType _ _ _ ih | setPending _ _ ih => exact { ih with }
  | pushPart _ _ ih => exact ih.pushPart _
  | setVariable _ _ type ih =>
      exact { ih with levels := ih.levels.trans (levelsAgree_setType _ _ type) }
  | setLevels _ hallowed => exact absurd hallowed hlevels
  | setResolver _ hclasses ih => exact { ih with classes := hclasses.trans ih.classes }

end UseState.SameStacks

/-! ### Phrases that move stacks -/

/-- The phrases that push something where they are entered, besides their frame. -/
def opensLevel : PhraseKind → Bool
  | .classDeclaration | .interfaceDeclaration | .traitDeclaration | .functionDeclaration
  | .methodDeclaration | .anonymousFunctionCreationExpression | .ifStatement | .switchStatement
  | .elseIfClause | .elseClause | .caseStatement | .defaultStatement
  | .namespaceDefinition => true
  | _ => false

variable {doc : Document} {table : SymbolTable} {source : SymbolSource} {tree : Tree}
  {kind : PhraseKind} {frame : Frame} {state inside : UseState}

theorem plain_of_opensLevel (hplain : opensLevel kind = false) (children : List Tree) :
    opensScope (.phrase kind children) = false ∧ ¬ movesLevels kind = true := by
  rw [Bool.not_eq_true]
  cases kind
  all_goals
    first
    | exact ⟨rfl, rfl⟩
    | cases hplain

theorem sameStacks_enterPlain (hplain : opensLevel kind = false) :
    state.SameStacks (enterPlain doc table source kind tree state) := by
  obtain ⟨hopens, hlevels⟩ := plain_of_opensLevel hplain tree.children
  obtain ⟨parts, hedits⟩ := @exists_edits_enterPlain doc table source kind tree hopens state
  exact .of_edits hedits hlevels

theorem sameStacks_valueOf (hplain : opensLevel frame.kind = false) :
    state.SameStacks (valueOf doc source tree frame state).1 := by
  obtain ⟨hopens, hlevels⟩ := plain_of_opensLevel hplain tree.children
  exact .of_edits (edits_valueOf hopens) hlevels

/-- A closed scope is gone from the stack. -/
theorem outer_closeScope {scope : Scope} {scopes : List Scope}
    (hscopes : state.outer.length = (scope :: scopes).length) :
    state.closeScope.outer.length = scopes.length := by
  rw [UseState.closeScope]
  split
  · rename_i hnone
    rw [hnone] at hscopes
    cases hscopes
  · rename_i hsome
    rw [hsome] at hscopes
    exact Nat.succ.inj hscopes

/-- Nothing but scopes is closed. -/
theorem closeScope_same (state : UseState) :
    state.closeScope.frames = state.frames ∧ state.closeScope.contexts = state.contexts ∧
      state.closeScope.resolver = state.resolver ∧
      state.closeScope.varTypes = state.varTypes := by
  rw [UseState.closeScope]
  split
  · exact ⟨rfl, rfl, rfl, rfl⟩
  · exact ⟨rfl, rfl, rfl, rfl⟩

/-- The end of a class takes away what its start has pushed. -/
theorem sameStacks_leaveClass (hinside : (enterClass doc table tree state).SameStacks inside) :
    state.SameStacks (leaveClass inside) := by
  obtain ⟨hframes, -, hresolver, hlevels⟩ := closeScope_same inside
  exact
    { frames := by
        rw [leaveClass, hframes]
        exact hinside.frames
      scopes := outer_closeScope hinside.scopes
      contexts := congrArg List.tail hinside.contexts
      classes := congrArg List.tail hinside.classes
      levels := by
        rw [leaveClass, hlevels]
        exact hinside.levels }

/-- A function starts with a scope of its own above the levels around it. -/
theorem levelsAgree_functionVariables (symbol : Symbol) (className : String)
    (around : VariableTable) :
    LevelsAgree (around.openScope (carriedInto symbol)).levels
      (functionVariables symbol className around).levels := by
  have hparameters : ∀ (parameters : List Symbol) (known : VariableTable),
      LevelsAgree known.levels (parameters.foldl (fun known parameter =>
        known.setType parameter.name parameter.type) known).levels := by
    intro parameters
    induction parameters with
    | nil => exact fun known => LevelsAgree.refl known.levels
    | cons parameter rest ih => exact fun known => (levelsAgree_setType _ _ _).trans (ih _)
  have hinside := hparameters symbol.parameters (around.openScope (carriedInto symbol))
  rw [functionVariables]
  split
  · exact hinside.trans (levelsAgree_setType _ _ _)
  · exact hinside

/-- A function leaves the very variables that were there before it. -/
theorem varTypes_leaveFunction
    (hinside : (enterFunction doc table tree state).SameStacks inside) :
    (leaveFunction inside).varTypes = state.varTypes :=
  closeScope_eq_of_agree (by rfl)
    ((levelsAgree_functionVariables _ _ state.varTypes).trans hinside.levels)

/-- The end of a function takes away what its start has pushed. -/
theorem sameStacks_leaveFunction
    (hinside : (enterFunction doc table tree state).SameStacks inside) :
    state.SameStacks (leaveFunction inside) := by
  obtain ⟨hframes, -, hresolver, -⟩ := closeScope_same inside
  exact
    { frames := by
        rw [leaveFunction, hframes]
        exact hinside.frames
      scopes := outer_closeScope hinside.scopes
      contexts := congrArg List.tail hinside.contexts
      classes := by
        rw [leaveFunction, hresolver]
        exact hinside.classes
      levels := by
        rw [varTypes_leaveFunction hinside]
        exact LevelsAgree.refl _ }

/-- The branch of the last clause is closed with its statement. -/
theorem sameStacks_leaveConditional
    (hinside : { state with varTypes := state.varTypes.openBranch }.SameStacks inside) :
    state.SameStacks { inside with varTypes := inside.varTypes.closeBranch.uniteBranches } :=
  { hinside with
    levels := (levelsAgree_closeBranch (by rfl) (List.cons_ne_nil _ _) hinside.levels).trans
      (levelsAgree_uniteBranches _) }

/-- A clause swaps the branch of the clause before it for its own. -/
theorem sameStacks_enterClause (hbranch : state.varTypes.InBranch) :
    state.SameStacks { state with varTypes := state.varTypes.closeBranch.openBranch } :=
  { UseState.SameStacks.refl state with levels := hbranch.levelsAgree_swap }

theorem sameStacks_namespaceUse :
    (if (tree.childPhrase? .compoundStatement).isSome then
      state.openScope (doc.location (doc.treeRange tree)) else state).SameStacks
      (namespaceUse doc tree state) :=
  .of_edits (edits_namespaceUse tree state) Bool.false_ne_true

/-- The end of a namespace takes away the scope of its braces, if it has any. -/
theorem sameStacks_leaveNamespace (hkind : frame.kind = .namespaceDefinition)
    (hinside : (namespaceUse doc tree state).SameStacks inside) :
    state.SameStacks (valueOf doc source tree frame inside).1 := by
  have hopened := (@sameStacks_namespaceUse doc tree state).trans hinside
  rw [valueOf, hkind]
  dsimp only
  split
  · rename_i hcompound
    rw [if_pos hcompound] at hopened
    obtain ⟨hframes, hcontexts, -, hlevels⟩ := closeScope_same inside
    exact
      { frames := by
          rw [hframes]
          exact hopened.frames
        scopes := outer_closeScope hopened.scopes
        contexts := by
          rw [hcontexts]
          exact hopened.contexts
        classes := hopened.classes
        levels := by
          rw [hlevels]
          exact hopened.levels }
  · rename_i hcompound
    rwa [if_neg hcompound] at hopened

/-! ### The walk -/

/-- The clauses that may stand somewhere have a branch there to swap. -/
def UseState.Fits (state : UseState) (around : Tree.Surroundings) : Prop :=
  around ≠ .other → state.varTypes.InBranch

theorem UseState.Fits.congr {around : Tree.Surroundings} {after : UseState}
    (hfits : state.Fits around) (hsame : state.SameStacks after) : after.Fits around :=
  fun haround => (hfits haround).congr hsame.levels

/-- Whatever the phrase is, leaving it takes away what entering it has pushed. -/
theorem sameStacks_valueOf_of_entered (hkind : frame.kind = kind) {around : Tree.Surroundings}
    (hplace : Tree.mayStandIn around kind = true) (hfits : state.Fits around)
    (hinside : (enterPlain doc table source kind tree state).SameStacks inside) :
    state.SameStacks (valueOf doc source tree frame inside).1 := by
  cases hopens : opensLevel kind with
  | false =>
      exact ((sameStacks_enterPlain hopens).trans hinside).trans
        (sameStacks_valueOf (hkind ▸ hopens))
  | true =>
      have hbranch (haround : around = .conditional ∨ around = .choice) :
          state.varTypes.InBranch := by
        rcases haround with rfl | rfl
        · exact hfits (by decide)
        · exact hfits (by decide)
      cases kind
      case namespaceDefinition => exact sameStacks_leaveNamespace hkind hinside
      case classDeclaration | interfaceDeclaration | traitDeclaration =>
        rw [valueOf, hkind]
        exact sameStacks_leaveClass hinside
      case functionDeclaration | methodDeclaration | anonymousFunctionCreationExpression =>
        rw [valueOf, hkind]
        exact sameStacks_leaveFunction hinside
      case ifStatement | switchStatement =>
        rw [valueOf, hkind]
        exact sameStacks_leaveConditional hinside
      case elseIfClause | elseClause =>
        rw [valueOf, hkind]
        exact (sameStacks_enterClause (hbranch (Or.inl (beq_iff_eq.1 hplace)))).trans hinside
      case caseStatement | defaultStatement =>
        rw [valueOf, hkind]
        exact (sameStacks_enterClause (hbranch (Or.inr (beq_iff_eq.1 hplace)))).trans hinside
      all_goals cases hopens

/-- Inside a phrase the clauses that may stand there have a branch to swap. -/
theorem fits_enterPlain {around : Tree.Surroundings} (hfits : state.Fits around) :
    (enterPlain doc table source kind tree state).Fits (Tree.surroundingsBelow around kind) := by
  intro hbelow
  cases hopens : opensLevel kind with
  | false =>
      have haround : Tree.surroundingsBelow around kind = around := by
        cases kind
        all_goals
          first
          | rfl
          | cases hopens
      exact hfits.congr (sameStacks_enterPlain hopens) (haround ▸ hbelow)
  | true =>
      cases kind
      case namespaceDefinition =>
        have hsame := (@sameStacks_namespaceUse doc tree state).levels
        split at hsame
        · exact (hfits hbelow).congr hsame
        · exact (hfits hbelow).congr hsame
      case ifStatement | switchStatement => exact inBranch_openBranch state.varTypes
      all_goals
        first
        | exact absurd rfl hbelow
        | cases hopens

/-- Below a phrase the clauses that may stand there have a branch to swap. -/
theorem fits_enterUse {around : Tree.Surroundings} (hfits : state.Fits around) :
    (enterUse doc table source kind tree state).Fits (Tree.surroundingsBelow around kind) := by
  have hentered : (enterPlain doc table source kind tree state).Fits
      (Tree.surroundingsBelow around kind) := fits_enterPlain hfits
  rw [enterUse]
  split
  · exact hentered
  · exact hentered

/-- The frame of a phrase is on top where the phrase is left. -/
theorem exists_frame (hdescends : descendsForUses kind = true)
    (hinside : (enterUse doc table source kind tree state).SameStacks inside) :
    ∃ frame rest, inside.frames = frame :: rest ∧ frame.kind = kind ∧
      (enterPlain doc table source kind tree state).SameStacks { inside with frames := rest } := by
  rw [enterUse, if_pos hdescends] at hinside
  obtain ⟨frame, rest, hframes, hkind, hrest⟩ := List.map_eq_cons_iff.1 hinside.frames
  exact ⟨frame, rest, hframes, hkind, hrest, hinside.scopes, hinside.contexts, hinside.classes,
    hinside.levels⟩

theorem leaveUse_of_frame {rest : List Frame} (hframes : inside.frames = frame :: rest) :
    (valueOf doc source tree frame { inside with frames := rest }).1.SameStacks
        (leaveUse doc source tree inside) ∧
      (leaveUse doc source tree inside).varTypes =
        (valueOf doc source tree frame { inside with frames := rest }).1.varTypes := by
  rw [leaveUse, hframes]
  dsimp only
  split
  · rename_i hvalue
    rw [hvalue]
    exact ⟨UseState.SameStacks.refl _, rfl⟩
  · rename_i left part hvalue
    rw [hvalue]
    refine ⟨(UseState.SameStacks.refl left).pushPart _, ?_⟩
    rw [UseState.pushPart]
    split
    · rfl
    · rfl

/-- Behind a phrase the stacks are as high as before it. -/
theorem sameStacks_leaveUse {around : Tree.Surroundings} (hdescends : descendsForUses kind = true)
    (hplace : Tree.mayStandIn around kind = true) (hfits : state.Fits around)
    (hinside : (enterUse doc table source kind tree state).SameStacks inside) :
    state.SameStacks (leaveUse doc source tree inside) := by
  obtain ⟨frame, rest, hframes, hkind, hpopped⟩ := exists_frame hdescends hinside
  exact (sameStacks_valueOf_of_entered hkind hplace hfits hpopped).trans
    (leaveUse_of_frame hframes).1

/-- Behind a function the variables are what they were before it. -/
theorem varTypes_leaveUse {children : List Tree}
    (hfunction : (Tree.phrase kind children).isFunction = true)
    (hinside : (enterUse doc table source kind tree state).SameStacks inside) :
    (leaveUse doc source tree inside).varTypes = state.varTypes := by
  have hdescends : descendsForUses kind = true := by
    cases kind
    all_goals
      first
      | rfl
      | cases hfunction
  obtain ⟨frame, rest, hframes, hkind, hpopped⟩ := exists_frame hdescends hinside
  rw [(leaveUse_of_frame hframes).2, valueOf, hkind]
  cases kind
  case functionDeclaration | methodDeclaration | anonymousFunctionCreationExpression =>
    exact varTypes_leaveFunction hpopped
  all_goals cases hfunction

/-! ### Every part of a tree -/

/-- Between the states before and after a tree with its clauses in place. -/
def Balanced (tree : Tree) (before after : UseState) : Prop :=
  ∀ around, tree.clausesInPlace around = true → before.Fits around →
    before.SameStacks after ∧ (tree.isFunction = true → after.varTypes = before.varTypes)

def BalancedAll (trees : List Tree) (before after : UseState) : Prop :=
  ∀ around, Tree.clausesInPlaceAll around trees = true → before.Fits around →
    before.SameStacks after

/-- Behind every tree with its clauses in place the stacks are as high as before it. -/
theorem useWalk_relates_balanced (doc : Document) (table : SymbolTable) (source : SymbolSource) :
    (useWalk doc table source).Relates Balanced BalancedAll where
  token leaf state around _ _ :=
    ⟨.of_edits (edits_useToken leaf state) not_false, fun hfunction => nomatch hfunction⟩
  passed kind children state hpasses around _ _ := by
    have hplain : opensLevel kind = false := by
      cases kind
      all_goals
        first
        | rfl
        | cases hpasses
    have hpassed : (useWalk doc table source).enter kind (.phrase kind children) state =
        enterPlain doc table source kind (.phrase kind children) state :=
      if_neg (Bool.eq_false_iff.1 hpasses)
    rw [hpassed]
    refine ⟨sameStacks_enterPlain hplain, fun hfunction => ?_⟩
    cases kind
    case functionDeclaration | methodDeclaration | anonymousFunctionCreationExpression =>
      cases hpasses
    all_goals cases hfunction
  phrase kind children state inside hdescends hchildren around hplaced hfits := by
    obtain ⟨hplace, hbelow⟩ := Bool.and_eq_true_iff.1 hplaced
    have hinside := hchildren _ hbelow (fits_enterUse hfits)
    exact ⟨sameStacks_leaveUse hdescends hplace hfits hinside,
      fun hfunction => varTypes_leaveUse hfunction hinside⟩
  nil state _ _ _ := UseState.SameStacks.refl state
  cons tree rest state next last htree hrest around hplaced hfits := by
    obtain ⟨hfirst, hlater⟩ := Bool.and_eq_true_iff.1 hplaced
    have hnext := (htree around hfirst hfits).1
    exact hnext.trans (hrest around hlater (hfits.congr hnext))

variable (doc table source) in
/-- Where the walk comes to a child of a phrase, the clauses below are in place and
have a branch to swap. -/
theorem fits_child {around : Tree.Surroundings} {earlier later : List Tree} {child : Tree}
    (hplaced : (Tree.phrase kind (earlier ++ child :: later)).clausesInPlace around = true)
    (hfits : state.Fits around) :
    Tree.clausesInPlaceAll (Tree.surroundingsBelow around kind) earlier = true ∧
      child.clausesInPlace (Tree.surroundingsBelow around kind) = true ∧
      ((useWalk doc table source).runAll earlier (enterUse doc table source kind
        (.phrase kind (earlier ++ child :: later)) state)).Fits
          (Tree.surroundingsBelow around kind) := by
  obtain ⟨-, hbelow⟩ := Bool.and_eq_true_iff.1 hplaced
  rw [Tree.clausesInPlaceAll_append, Bool.and_eq_true, Tree.clausesInPlaceAll,
    Bool.and_eq_true] at hbelow
  obtain ⟨hearlier, hchild, -⟩ := hbelow
  have hentered : (enterUse doc table source kind (.phrase kind (earlier ++ child :: later))
      state).Fits (Tree.surroundingsBelow around kind) := fits_enterUse hfits
  have hsame := (useWalk_relates_balanced doc table source).runAll earlier _ _ hearlier hentered
  exact ⟨hearlier, hchild, hentered.congr hsame⟩

/-- Wherever the walk comes to, clauses are in place and have a branch to swap. -/
theorem exists_fits_of_visits {tree part : Tree} {before : UseState} {around : Tree.Surroundings}
    (hvisits : (useWalk doc table source).Visits tree state part before)
    (hplaced : tree.clausesInPlace around = true) (hfits : state.Fits around) :
    ∃ around, part.clausesInPlace around = true ∧ before.Fits around := by
  induction hvisits generalizing around with
  | here => exact ⟨around, hplaced, hfits⟩
  | inside _ _ ih =>
      obtain ⟨-, hchild, harrived⟩ := fits_child doc table source hplaced hfits
      exact ih hchild harrived

/-- The five stacks are as high as before. -/
structure UseState.SameHeights (before after : UseState) : Prop where
  frames : after.frames.length = before.frames.length
  scopes : after.outer.length = before.outer.length
  contexts : after.contexts.length = before.contexts.length
  classes : after.resolver.classes.length = before.resolver.classes.length
  levels : after.varTypes.levels.length = before.varTypes.levels.length

theorem UseState.SameStacks.sameHeights (hsame : state.SameStacks inside) :
    state.SameHeights inside where
  frames := by
    have hlength := congrArg List.length hsame.frames
    rwa [List.length_map, List.length_map] at hlength
  scopes := hsame.scopes
  contexts := congrArg List.length hsame.contexts
  classes := congrArg List.length hsame.classes
  levels := hsame.levels.length_eq

/-- In a tree with its clauses in place every part that the walk comes to leaves
the five stacks as high as it found them, and a function leaves what is known of
every variable.  In the end no scope is open. -/
theorem sameHeights_after_every_part (doc : Document) (table : SymbolTable)
    (source : SymbolSource) (hplaced : doc.tree.clausesInPlace .other = true) :
    (∀ part before,
      (useWalk doc table source).Visits doc.tree (UseState.start doc) part before →
      before.SameHeights ((useWalk doc table source).run part before) ∧
      (part.isFunction = true → ∀ name,
        ((useWalk doc table source).run part before).varTypes.getType name =
          before.varTypes.getType name)) ∧
    ((useWalk doc table source).run doc.tree (UseState.start doc)).closeScopes =
      (useWalk doc table source).run doc.tree (UseState.start doc) := by
  have hrelates := useWalk_relates_balanced doc table source
  have hstart : (UseState.start doc).Fits .other := fun hother => absurd rfl hother
  constructor
  · intro part before hvisits
    obtain ⟨around, hpart, hfits⟩ := exists_fits_of_visits hvisits hplaced hstart
    obtain ⟨hsame, hfunction⟩ := hrelates.run part before around hpart hfits
    refine ⟨hsame.sameHeights, fun hkind name => ?_⟩
    rw [hfunction hkind]
  · obtain ⟨hsame, -⟩ := hrelates.run doc.tree (UseState.start doc) .other hplaced hstart
    have hnone := List.length_eq_zero_iff.1 hsame.scopes
    rw [UseState.closeScopes, hnone]
    rfl

/-- A function whose variable has one type in either arm of a conditional. -/
def armsDocument : Document :=
  Snippet.document "a"
    "<?php function f($a) \x7b if ($a) \x7b $b = 1; \x7d else \x7b $b = 2.5; \x7d \x7d"
    [Snippet.function "f" ["$a"] none
      [Snippet.ifElse (Snippet.variableUse "$a")
        [Snippet.expressionStatement
          (Snippet.assignment (Snippet.variableUse "$b") (Snippet.integerLiteral "1"))]
        [Snippet.expressionStatement
          (Snippet.assignment (Snippet.variableUse "$b") (Snippet.literal "2.5"))]]]

theorem sameHeights_after_every_part_of_arms :
    let walk := useWalk armsDocument (SymbolTable.ofDocument armsDocument) .unknown
    armsDocument.tree.clausesInPlace .other = true ∧
    (∀ part before, walk.Visits armsDocument.tree (UseState.start armsDocument) part before →
      before.SameHeights (walk.run part before) ∧
      (part.isFunction = true → ∀ name,
        (walk.run part before).varTypes.getType name = before.varTypes.getType name)) ∧
    (walk.run armsDocument.tree (UseState.start armsDocument)).closeScopes =
      walk.run armsDocument.tree (UseState.start armsDocument) := by
  have hplaced : armsDocument.tree.clausesInPlace .other = true := by decide +kernel
  exact ⟨hplaced, sameHeights_after_every_part armsDocument (SymbolTable.ofDocument armsDocument)
    .unknown hplaced⟩

end Reading

end SymbolIndex
