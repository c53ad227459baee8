import SymbolIndex.Proofs.Reading.Handed
import SymbolIndex.Proofs.VariableTable.Levels
import SymbolIndex.Tree.Snippet

/-!
# The type that waits for an assignment

A comment may give a type to the variable of the assignment behind it without
naming the variable.  The type waits in one place until an assignment to a plain
variable is left, and braces and ends of statements take it back.  So it reaches
the assignment that it stands before if the value has neither, nor an assignment
of its own.  Of all that is done until then nothing depends on the type that waits.
-/

namespace SymbolIndex

/-! ## Trees that let a type wait -/

namespace Reading

/-- A comment that gives a type, or a token that takes back the one that waits. -/
def endsWaiting : TokenKind → Bool
  | .documentComment | .openBrace | .closeBrace | .semicolon => true
  | _ => false

/-- The first operand among the parts is a plain variable. -/
def assignsVariable (children : List Tree) : Bool :=
  ((children.find? (·.isOperand)).bind (·.variableToken?)).isSome

end Reading

namespace Tree

mutual

/-- Wherever the walk comes to in the tree, nothing uses up the type that waits or takes it back. -/
def keepsWaiting : Tree → Bool
  | token leaf => !Reading.endsWaiting leaf.kind
  | phrase kind children =>
    if Reading.descendsForUses kind then
      !(Reading.isAssignment kind && Reading.assignsVariable children) && keepsWaitingAll children
    else true

def keepsWaitingAll : List Tree → Bool
  | [] => true
  | tree :: rest => keepsWaiting tree && keepsWaitingAll rest

end

end Tree

namespace Reading

variable {doc : Document} {table : SymbolTable} {source : SymbolSource}

namespace UseState

/-- The same state, with another type that waits. -/
def await (type : Option String) (state : UseState) : UseState :=
  { state with pendingType := type }

variable {state : UseState} {waiting : Option String}

theorem pushPart_await (part : Part) :
    (state.await waiting).pushPart part = (state.pushPart part).await waiting := by
  rw [pushPart, pushPart]
  dsimp only [await]
  split
  · rfl
  · rfl

theorem emitAll_await (references : List Reference) :
    (state.await waiting).emitAll references = (state.emitAll references).await waiting := by
  rw [emitAll, emitAll]
  induction references generalizing state with
  | nil => rfl
  | cons reference rest ih => exact @ih (state.emit reference)

theorem patchType_await (place : Option Nat) (type : String) :
    (state.await waiting).patchType place type = (state.patchType place type).await waiting := by
  cases place with
  | none => rfl
  | some place => rfl

theorem closeScope_await :
    (state.await waiting).closeScope = state.closeScope.await waiting := by
  rw [closeScope, closeScope]
  dsimp only [await]
  split
  · rfl
  · rfl

end UseState

/-! ## Nothing depends on the type that waits -/

section

variable {state : UseState} {waiting : Option String}

theorem variableToken_await (leaf : Token) :
    variableToken doc leaf (state.await waiting) =
      (variableToken doc leaf state).await waiting := by
  have hparent : (state.await waiting).parentKind? = state.parentKind? := rfl
  rw [variableToken, variableToken, hparent]
  dsimp only
  split
  · rfl
  · rfl
  · rfl
  · rfl

/-- Tokens do not look at the type that waits, save those that end the waiting. -/
theorem useToken_await {leaf : Token} (hkeeps : endsWaiting leaf.kind = false) :
    useToken doc table leaf (state.await waiting) =
      (useToken doc table leaf state).await waiting := by
  obtain ⟨kind, offset, length⟩ := leaf
  cases kind
  case documentComment | openBrace | closeBrace | semicolon => cases hkeeps
  case integerLiteral | floatingLiteral | stringLiteral | operatorMark =>
    exact UseState.pushPart_await _
  case plainName => exact UseState.emitAll_await _
  case variableName => exact variableToken_await _
  all_goals rfl

variable {kind : PhraseKind} {tree : Tree}

theorem nameUse_await :
    nameUse doc source tree (state.await waiting) =
      (nameUse doc source tree state).await waiting := by
  have hkind : usedKind (state.await waiting) = usedKind state := rfl
  have hbuiltIn (kind : SymbolKind) (text : String) :
      builtInType? (state.await waiting) kind text = builtInType? state kind text := rfl
  rw [nameUse, nameUse, hkind]
  dsimp only
  rw [hbuiltIn]
  split
  · exact UseState.pushPart_await _
  · exact @UseState.pushPart_await (state.emit _) waiting _

theorem simpleVariable_await :
    simpleVariable doc tree (state.await waiting) =
      (simpleVariable doc tree state).await waiting := by
  rw [simpleVariable, simpleVariable]
  split
  · rfl
  · exact @UseState.pushPart_await (state.emit _) waiting _

theorem identifierUse_await :
    identifierUse doc tree (state.await waiting) =
      (identifierUse doc tree state).await waiting := by
  have hparent : (state.await waiting).parentKind? = state.parentKind? := rfl
  have hfunction : (state.await waiting).functionAround? = state.functionAround? := rfl
  rw [identifierUse, identifierUse, hparent]
  dsimp only
  split
  · rw [hfunction]
    split
    · rfl
    · rfl
  · rfl
  · exact UseState.pushPart_await _

theorem importUses_await (imports : List Symbol) :
    imports.foldl importUse (state.await waiting) =
      (imports.foldl importUse state).await waiting := by
  induction imports generalizing state with
  | nil => rfl
  | cons symbol rest ih =>
      have hused : importUse (state.await waiting) symbol =
          (importUse state symbol).await waiting := by
        rw [importUse, importUse, UseState.emitAll_await]
        rfl
      rw [List.foldl_cons, List.foldl_cons, hused, ih]

theorem namespaceUse_await :
    namespaceUse doc tree (state.await waiting) =
      (namespaceUse doc tree state).await waiting := by
  rw [namespaceUse, namespaceUse]
  split
  · split
    · rfl
    · rfl
  · split
    · rfl
    · rfl

theorem enterPlain_await :
    enterPlain doc table source kind tree (state.await waiting) =
      (enterPlain doc table source kind tree state).await waiting := by
  cases kind
  case qualifiedName | fullyQualifiedName | relativeQualifiedName => exact nameUse_await
  case simpleVariable => exact simpleVariable_await
  case identifier => exact identifierUse_await
  case scopedMemberName | memberName => exact UseState.pushPart_await _
  case namespaceUseDeclaration => exact importUses_await _
  case namespaceDefinition => exact namespaceUse_await
  all_goals rfl

theorem enterUse_await :
    enterUse doc table source kind tree (state.await waiting) =
      (enterUse doc table source kind tree state).await waiting := by
  rw [enterUse, enterUse, enterPlain_await]
  split
  · rfl
  · rfl

/-- The state behind a step and what is handed up, with another type that waits. -/
def awaitLeft (waiting : Option String) (result : UseState × Option Part) :
    UseState × Option Part :=
  (result.1.await waiting, result.2)

/-- Where the target is no plain variable, an assignment does not take the type that waits. -/
theorem assign_await {frame : Frame} (htarget : frame.target? = none) :
    assign frame (state.await waiting) =
      ((assign frame state).1.await waiting, (assign frame state).2) := by
  rw [assign, assign]
  split
  · rfl
  · rename_i part rest hoperands
    dsimp only
    split
    · rename_i hphrase hname
      have hsome := Frame.target?_eq_some.2 ⟨congrArg List.head? hoperands, hphrase, hname⟩
      rw [htarget] at hsome
      cases hsome
    · rfl
    · rfl

/-- A member is looked up whatever waits. -/
theorem memberAccess_await (isCall : Bool) (frame : Frame) :
    memberAccess doc source isCall frame (state.await waiting) =
      ((memberAccess doc source isCall frame state).1.await waiting,
        (memberAccess doc source isCall frame state).2) := by
  rw [memberAccess, memberAccess]
  split
  · rfl
  · rfl

theorem scopedAccess_await (kind : SymbolKind) (frame : Frame) :
    scopedAccess doc source kind frame (state.await waiting) =
      ((scopedAccess doc source kind frame state).1.await waiting,
        (scopedAccess doc source kind frame state).2) := by
  rw [scopedAccess, scopedAccess]
  split
  · rfl
  · split
    · rfl
    · rfl

theorem instanceTest_await (frame : Frame) :
    instanceTest frame (state.await waiting) = (instanceTest frame state).await waiting := by
  have hparent : (state.await waiting).parentKind? = state.parentKind? := rfl
  rw [instanceTest, instanceTest, hparent]
  split
  · split
    · rfl
    · rfl
  · rfl

theorem loopValue_await (frame : Frame) :
    loopValue frame (state.await waiting) = (loopValue frame state).await waiting := by
  have hframes : (state.await waiting).frames = state.frames := rfl
  rw [loopValue, loopValue, hframes]
  split
  · rfl
  · split
    · exact @UseState.patchType_await (state.setVariable _ _) waiting _ _
    · rfl

/-- Only assignments to plain variables look at the type that waits. -/
theorem valueOf_await {frame : Frame}
    (htarget : isAssignment frame.kind = true → frame.target? = none) :
    valueOf doc source tree frame (state.await waiting) =
      awaitLeft waiting (valueOf doc source tree frame state) := by
  obtain ⟨kind, parts⟩ := frame
  cases kind
  case classDeclaration | interfaceDeclaration | traitDeclaration =>
    exact congrArg (fun closed : UseState => (({ closed with
      contexts := state.contexts.tail
      resolver := state.resolver.leaveClass } : UseState), none)) UseState.closeScope_await
  case functionDeclaration | methodDeclaration =>
    exact congrArg (fun closed : UseState => (({ closed with
      contexts := state.contexts.tail
      varTypes := state.varTypes.closeScope } : UseState), none)) UseState.closeScope_await
  case anonymousFunctionCreationExpression =>
    exact congrArg (fun closed : UseState => (({ closed with
      contexts := state.contexts.tail
      varTypes := state.varTypes.closeScope } : UseState), some (Part.typed "Closure")))
      UseState.closeScope_await
  case namespaceDefinition =>
    rw [valueOf, valueOf]
    dsimp only
    split
    · rw [UseState.closeScope_await]
      rfl
    · rfl
  case simpleAssignmentExpression | byRefAssignmentExpression =>
    exact congrArg (fun result : UseState × Part => (result.1, some result.2))
      (assign_await (htarget rfl))
  case methodCallExpression | propertyAccessExpression =>
    exact congrArg (fun result : UseState × Part => (result.1, some result.2))
      (memberAccess_await _ _)
  case scopedCallExpression | scopedPropertyAccessExpression | classConstantAccessExpression =>
    exact congrArg (fun result : UseState × Part => (result.1, some result.2))
      (scopedAccess_await _ _)
  case instanceOfExpression =>
    exact congrArg (fun left : UseState => (left, some (Part.typed "bool")))
      (instanceTest_await _)
  case foreachValue => exact congrArg (fun left : UseState => (left, none)) (loopValue_await _)
  all_goals rfl

/-- Leaving a phrase does not look at the type that waits, save at the end of an assignment. -/
theorem leaveUse_await {frame : Frame} {rest : List Frame} (hframes : state.frames = frame :: rest)
    (htarget : isAssignment frame.kind = true → frame.target? = none) :
    leaveUse doc source tree (state.await waiting) =
      (leaveUse doc source tree state).await waiting := by
  have hpopped : UseState.await waiting { state with frames := rest } =
      { state.await waiting with frames := rest } := rfl
  have hwaiting : (state.await waiting).frames = frame :: rest := hframes
  rw [leaveUse_eq tree hwaiting, leaveUse_eq tree hframes, ← hpopped, valueOf_await htarget,
    awaitLeft]
  dsimp only
  cases (valueOf doc source tree frame { state with frames := rest }).2 with
  | none => rfl
  | some part => exact UseState.pushPart_await _

end

/-! ## The walk -/

theorem assignsVariable_of_targetIn {children earlier later : List Tree} {occurrence : Tree}
    {leaf : Token} (htarget : TargetIn children earlier occurrence later leaf) :
    assignsVariable children = true := by
  have hnone : earlier.find? (·.isOperand) = none :=
    List.find?_eq_none.2 fun tree htree => Bool.eq_false_iff.1 (htarget.first tree htree)
  rw [assignsVariable, htarget.split, List.find?_append, hnone, Option.none_or,
    List.find?_cons_of_pos (Tree.isOperand_of_variableToken? htarget.plain), Option.bind_some,
    htarget.plain]
  rfl

variable (doc table source) in
/-- Another type that waits before a tree waits behind it, and all else is the same. -/
def AwaitsIn (tree : Tree) (state : UseState) : Prop :=
  tree.keepsWaiting = true → ∀ waiting,
    (useWalk doc table source).run tree (state.await waiting) =
      ((useWalk doc table source).run tree state).await waiting

variable (doc table source) in
def AwaitsInAll (trees : List Tree) (state : UseState) : Prop :=
  Tree.keepsWaitingAll trees = true → ∀ waiting,
    (useWalk doc table source).runAll trees (state.await waiting) =
      ((useWalk doc table source).runAll trees state).await waiting

/-- A type waits through a phrase if it waits through its children. -/
theorem awaitsIn_phrase {kind : PhraseKind} {children : List Tree} {state : UseState}
    (hdescends : descendsForUses kind = true)
    (hchildren : AwaitsInAll doc table source children
      (enterUse doc table source kind (.phrase kind children) state)) :
    AwaitsIn doc table source (.phrase kind children) state := by
  intro hkeeps waiting
  rw [Tree.keepsWaiting, if_pos hdescends, Bool.and_eq_true] at hkeeps
  obtain ⟨hassigns, hbelow⟩ := hkeeps
  obtain ⟨parts, hhanded⟩ := exists_handedAll doc table source children
    (enterUse doc table source kind (.phrase kind children) state)
  have htarget : isAssignment kind = true → (Frame.mk kind parts).target? = none := by
    intro hassignment
    cases hsome : (Frame.mk kind parts).target? with
    | none => rfl
    | some target =>
        obtain ⟨part, name⟩ := target
        obtain ⟨hfirst, hphrase, -⟩ := Frame.target?_eq_some.1 hsome
        obtain ⟨earlier, occurrence, later, leaf, hin, -⟩ :=
          hhanded.exists_targetIn (retypes_of_isAssignment hassignment) hfirst hphrase
        rw [hassignment, assignsVariable_of_targetIn hin] at hassigns
        cases hassigns
  rw [run_eq_leaveUse doc table source hdescends, run_eq_leaveUse doc table source hdescends,
    enterUse_await, hchildren hbelow, leaveUse_await (hhanded.frames hdescends) htarget]

variable (doc table source) in
/-- A type waits through all trees that keep it waiting. -/
theorem useWalk_inducts_awaits : (useWalk doc table source).Inducts (AwaitsIn doc table source)
    (AwaitsInAll doc table source) where
  token leaf state hkeeps waiting := by
    rw [Walk.run_token, Walk.run_token]
    exact useToken_await (Bool.not_eq_true' _ ▸ hkeeps)
  passed kind children state hpasses _ waiting := by
    rw [Walk.run_of_passes hpasses, Walk.run_of_passes hpasses]
    exact enterUse_await
  phrase kind children state hdescends hchildren := awaitsIn_phrase hdescends hchildren
  nil state _ waiting := by
    rw [Walk.runAll, Walk.runAll]
  cons tree rest state htree hrest hkeeps waiting := by
    obtain ⟨hfirst, hlater⟩ := Bool.and_eq_true_iff.1 hkeeps
    rw [Walk.runAll, Walk.runAll, htree hfirst, hrest hlater]

/-! ## A statement behind a comment -/

end Reading

namespace Tree

/-- Blanks, and comments that document nothing. -/
def isGap (tree : Tree) : Bool :=
  tree.isToken .whitespace || tree.isToken .comment

/-- A statement that assigns to a variable.  Gaps may stand before its parts, and
behind the assignment the end of the statement. -/
def assignmentStatement (lead inner : List Tree) (target : Tree) (rest tail : List Tree) : Tree :=
  phrase .expressionStatement
    (lead ++ phrase .simpleAssignmentExpression (inner ++ target :: rest) :: tail)

end Tree

namespace Reading

section

variable {state : UseState}

theorem exists_token_of_isToken {tree : Tree} {kind : TokenKind}
    (htoken : tree.isToken kind = true) : ∃ leaf, tree = .token leaf ∧ leaf.kind = kind := by
  cases tree with
  | phrase => cases htoken
  | token leaf => exact ⟨leaf, rfl, Option.some.inj (beq_iff_eq.1 htoken)⟩

theorem exists_token_of_isGap {tree : Tree} (hgap : tree.isGap = true) :
    ∃ leaf, tree = .token leaf ∧ (leaf.kind = .whitespace ∨ leaf.kind = .comment) := by
  rcases Bool.or_eq_true_iff.1 hgap with hblank | hcomment
  · obtain ⟨leaf, rfl, hkind⟩ := exists_token_of_isToken hblank
    exact ⟨leaf, rfl, Or.inl hkind⟩
  · obtain ⟨leaf, rfl, hkind⟩ := exists_token_of_isToken hcomment
    exact ⟨leaf, rfl, Or.inr hkind⟩

theorem run_gap {tree : Tree} (hgap : tree.isGap = true) (state : UseState) :
    (useWalk doc table source).run tree state = state := by
  obtain ⟨⟨kind, offset, length⟩, rfl, hkind⟩ := exists_token_of_isGap hgap
  rw [Walk.run_token]
  rcases hkind with rfl | rfl
  · rfl
  · rfl

theorem runAll_gaps {trees : List Tree} (hgaps : ∀ tree ∈ trees, tree.isGap = true)
    (state : UseState) : (useWalk doc table source).runAll trees state = state :=
  Walk.runAll_of_forall (P := (· = state)) rfl fun tree htree before hbefore => by
    rw [hbefore, run_gap (hgaps tree htree)]

/-- Behind the assignment no type waits that the end of the statement could take back. -/
theorem runAll_tail {trees : List Tree}
    (htail : ∀ tree ∈ trees, tree.isGap = true ∨ tree.isToken .semicolon = true)
    (hnone : state.pendingType = none) :
    (useWalk doc table source).runAll trees state = state := by
  refine Walk.runAll_of_forall (P := (· = state)) rfl fun tree htree before hbefore => ?_
  rcases htail tree htree with hgap | hend
  · rw [hbefore, run_gap hgap]
  · obtain ⟨⟨kind, offset, length⟩, rfl, rfl⟩ := exists_token_of_isToken hend
    rw [hbefore, Walk.run_token]
    change { state with pendingType := none } = state
    rw [← hnone]

theorem keepsWaiting_of_isGap {tree : Tree} (hgap : tree.isGap = true) :
    tree.keepsWaiting = true := by
  obtain ⟨⟨kind, offset, length⟩, rfl, hkind⟩ := exists_token_of_isGap hgap
  rcases hkind with rfl | rfl
  · rfl
  · rfl

theorem keepsWaitingAll_append {left right : List Tree}
    (hleft : ∀ tree ∈ left, tree.keepsWaiting = true)
    (hright : Tree.keepsWaitingAll right = true) :
    Tree.keepsWaitingAll (left ++ right) = true := by
  induction left with
  | nil => exact hright
  | cons tree rest ih =>
      obtain ⟨hfirst, hlater⟩ := List.forall_mem_cons.1 hleft
      rw [List.cons_append, Tree.keepsWaitingAll, hfirst, ih hlater]
      rfl

/-- The type that an assignment would give its target if none waited. -/
def assignedType (frame : Frame) : String :=
  (frame.operands.tail.getLast?.map (·.type)).getD ""

/-- An assignment to a plain variable gives it the type that waits, or that of the value, and
takes the one that waits away. -/
theorem valueOf_assignment {frame : Frame} {part : Part} {name : String} (tree : Tree)
    (hkind : frame.kind = .simpleAssignmentExpression) (htarget : frame.target? = some (part, name))
    (state : UseState) :
    valueOf doc source tree frame state =
      let type := state.pendingType.getD (assignedType frame)
      (((state.await none).setVariable name type).patchType part.reference type,
        some (.typed type)) := by
  obtain ⟨hfirst, hphrase, hname⟩ := Frame.target?_eq_some.1 htarget
  obtain ⟨rest, hoperands⟩ := List.head?_eq_some_iff.1 hfirst
  obtain ⟨kind, parts⟩ := frame
  cases hkind
  change ((assign _ state).1, some (assign _ state).2) = _
  rw [assign, assignedType, hoperands]
  dsimp only
  rw [hphrase, hname]
  rfl

theorem UseState.frames_pushPart_of_frames {frame : Frame} {frames : List Frame} (part : Part)
    (hframes : state.frames = frame :: frames) :
    (state.pushPart part).frames = { frame with parts := frame.parts ++ [part] } :: frames := by
  rw [pushPart, hframes]

theorem frames_pushPart (state : UseState) (part : Part) (frames : List Frame) :
    { state.pushPart part with frames := frames } = { state with frames := frames } := by
  rw [UseState.pushPart]
  split
  · rfl
  · rfl

theorem pendingType_pushPart (state : UseState) (part : Part) :
    (state.pushPart part).pendingType = state.pendingType := by
  rw [UseState.pushPart]
  split
  · rfl
  · rfl

variable {inner lead rest tail : List Tree} {target : Tree} {leaf : Token}

variable (doc table source) in
/-- The state in which an assignment gives its type to the target. -/
def assigning (inner : List Tree) (target : Tree) (rest : List Tree) (state : UseState) :
    UseState :=
  (useWalk doc table source).runAll (inner ++ target :: rest)
    (enterUse doc table source .simpleAssignmentExpression
      (.phrase .simpleAssignmentExpression (inner ++ target :: rest)) state)

variable (doc table source) in
/-- An assignment takes the type that waits, if one does. -/
theorem exists_run_assignment (hinner : ∀ tree ∈ inner, tree.isGap = true)
    (hleaf : target.variableToken? = some leaf) (hrest : Tree.keepsWaitingAll rest = true)
    (state : UseState) :
    ∃ value, ∀ waiting, ∃ part,
      (useWalk doc table source).run
          (.phrase .simpleAssignmentExpression (inner ++ target :: rest)) (state.await waiting) =
        (((UseState.await none { assigning doc table source inner target rest state with
            frames := state.frames }).setVariable (doc.tokenText leaf)
              (waiting.getD value)).patchType (some state.nextPlace) (waiting.getD value)).pushPart
          part := by
  have hkeeps : Tree.keepsWaitingAll (inner ++ target :: rest) = true := by
    refine keepsWaitingAll_append (fun tree htree => keepsWaiting_of_isGap (hinner tree htree)) ?_
    obtain ⟨children, rfl, -⟩ := Tree.exists_children_of_variableToken? hleaf
    exact hrest
  obtain ⟨parts, hhanded⟩ := exists_handedAll doc table source (inner ++ target :: rest)
    (enterUse doc table source .simpleAssignmentExpression
      (.phrase .simpleAssignmentExpression (inner ++ target :: rest)) state)
  have hframes : (assigning doc table source inner target rest state).frames =
      ⟨.simpleAssignmentExpression, parts⟩ :: state.frames := hhanded.frames rfl
  have hfirst := Frame.first?_eq_find? ⟨.simpleAssignmentExpression, parts⟩
  have hoperands : ∀ tree ∈ inner, tree.isOperand = false := by
    intro tree htree
    obtain ⟨⟨kind, offset, length⟩, rfl, hkind⟩ := exists_token_of_isGap (hinner tree htree)
    rcases hkind with rfl | rfl
    · rfl
    · rfl
  rw [hhanded.find?_eq_some (declaresMember_of_retypes _ _ _ _ rfl _) hoperands hleaf,
    runAll_gaps hinner] at hfirst
  have htarget := Frame.target?_eq_some.2 ⟨hfirst, rfl, rfl⟩
  refine ⟨assignedType ⟨.simpleAssignmentExpression, parts⟩, fun waiting => ?_⟩
  have hinside : (useWalk doc table source).runAll (inner ++ target :: rest)
      (enterUse doc table source .simpleAssignmentExpression
        (.phrase .simpleAssignmentExpression (inner ++ target :: rest)) (state.await waiting)) =
      (assigning doc table source inner target rest state).await waiting := by
    rw [enterUse_await]
    exact (useWalk_inducts_awaits doc table source).trees _ _ hkeeps waiting
  have hrun : (useWalk doc table source).run
      (.phrase .simpleAssignmentExpression (inner ++ target :: rest)) (state.await waiting) =
      leaveUse doc source (.phrase .simpleAssignmentExpression (inner ++ target :: rest))
        ((assigning doc table source inner target rest state).await waiting) := by
    rw [← hinside]
    exact Walk.run_of_descends (by rfl) _ _
  have hwaiting : ((assigning doc table source inner target rest state).await waiting).frames =
      ⟨.simpleAssignmentExpression, parts⟩ :: state.frames := hframes
  rw [hrun, leaveUse_eq _ hwaiting, valueOf_assignment _ rfl htarget]
  exact ⟨_, rfl⟩

variable (doc table source) in
/-- So does a statement that is one, and nothing of it is left on the stack of phrases. -/
theorem exists_run_statement (hlead : ∀ tree ∈ lead, tree.isGap = true)
    (hinner : ∀ tree ∈ inner, tree.isGap = true)
    (htail : ∀ tree ∈ tail, tree.isGap = true ∨ tree.isToken .semicolon = true)
    (hleaf : target.variableToken? = some leaf) (hrest : Tree.keepsWaitingAll rest = true)
    (state : UseState) :
    ∃ (base : UseState) (value : String),
      state.scope.children ++ [.reference (mentionOf doc leaf state)] <+: base.scope.children ∧
      ∀ waiting, (useWalk doc table source).run
          (Tree.assignmentStatement lead inner target rest tail) (state.await waiting) =
        (base.setVariable (doc.tokenText leaf) (waiting.getD value)).patchType
          (some state.nextPlace) (waiting.getD value) := by
  obtain ⟨value, hassignment⟩ := exists_run_assignment doc table source hinner hleaf hrest
    { state with frames := { kind := .expressionStatement } :: state.frames }
  refine ⟨UseState.await none { assigning doc table source inner target rest
    { state with frames := { kind := .expressionStatement } :: state.frames } with
      frames := state.frames }, value, ?_, fun waiting => ?_⟩
  · have hmention := (mention_stays doc table source hleaf rest
      (enterUse doc table source .simpleAssignmentExpression
        (.phrase .simpleAssignmentExpression (inner ++ target :: rest))
        { state with frames := { kind := .expressionStatement } :: state.frames })).2
    have hassigning := Walk.runAll_append (useWalk doc table source) inner (target :: rest)
      (enterUse doc table source .simpleAssignmentExpression
        (.phrase .simpleAssignmentExpression (inner ++ target :: rest))
        { state with frames := { kind := .expressionStatement } :: state.frames })
    rw [runAll_gaps hinner] at hassigning
    rw [← hassigning] at hmention
    exact hmention
  · obtain ⟨part, hpart⟩ := hassignment waiting
    have hrun : (useWalk doc table source).run
        (Tree.assignmentStatement lead inner target rest tail) (state.await waiting) =
        leaveUse doc source (Tree.assignmentStatement lead inner target rest tail)
          ((useWalk doc table source).runAll
            (lead ++ .phrase .simpleAssignmentExpression (inner ++ target :: rest) :: tail)
            (UseState.await waiting
              { state with frames := { kind := .expressionStatement } :: state.frames })) :=
      Walk.run_of_descends (by rfl) _ _
    rw [hrun, Walk.runAll_append, runAll_gaps hlead, Walk.runAll, hpart,
      runAll_tail htail (pendingType_pushPart _ _),
      leaveUse_eq _ (UseState.frames_pushPart_of_frames part (by rfl))]
    exact frames_pushPart _ _ _

end

/-- What is recorded and given last counts, for the variable as for its mention. -/
theorem setVariable_patchType_again (state : UseState) (name first second : String)
    (place : Nat) :
    ((((state.setVariable name first).patchType (some place) first).setVariable name
      second).patchType (some place) second) =
      (state.setVariable name second).patchType (some place) second := by
  have htypes : UseState.withType second ∘ UseState.withType first = UseState.withType second := by
    funext child
    cases child with
    | scope inner => rfl
    | reference reference => rfl
  have hchildren := List.modify_modify_eq (UseState.withType first) (UseState.withType second)
    place state.scope.children
  rw [htypes] at hchildren
  have hvariables := state.varTypes.setType_setType name first second
  simp only [UseState.setVariable, UseState.patchType, hchildren, hvariables]

/-- The only tag of a comment gives a type to no particular variable. -/
theorem run_comment {comment : Token} {tag : DocTag} {state : UseState}
    (hcomment : comment.kind = .documentComment)
    (htags : (DocComment.parse (doc.tokenText comment)).tags = [tag])
    (htag : tag.kind = .variableType) (hunnamed : tag.name = "")
    (hplace : state.parentKind?.any isMemberListKind = false) :
    (useWalk doc table source).run (.token comment) state =
      state.await (some (resolveDocType state.resolver tag.type)) := by
  have hvariable : (DocComment.parse (doc.tokenText comment)).variableTags = [tag] := by
    rw [DocComment.variableTags, htags, List.filter_cons, if_pos (beq_iff_eq.2 htag),
      List.filter_nil]
  have hcommented : (useWalk doc table source).run (.token comment) state =
      inlineComment doc comment state := by
    obtain ⟨kind, offset, length⟩ := comment
    cases hcomment
    exact Walk.run_token _ _ _
  rw [hcommented, inlineComment, if_neg (Bool.eq_false_iff.1 hplace), hvariable, List.foldl_cons,
    List.foldl_nil, inlineTag, if_pos hunnamed]
  rfl

/-- A type that a comment gives to no particular variable goes to the assignment
behind it, when nothing in the value takes it back or uses it up: the variable has
this type, and so has the mention of it that is assigned to.  Other than that all
is as it would be without the comment. -/
theorem assignment_takes_awaited (doc : Document) (table : SymbolTable) (source : SymbolSource)
    (state : UseState) {comment leaf : Token} {tag : DocTag}
    {gap lead inner rest tail : List Tree} {target : Tree}
    (hcomment : comment.kind = .documentComment)
    (htags : (DocComment.parse (doc.tokenText comment)).tags = [tag])
    (htag : tag.kind = .variableType) (hunnamed : tag.name = "")
    (hplace : state.parentKind?.any isMemberListKind = false)
    (hgaps : ∀ tree ∈ gap ++ lead ++ inner, tree.isGap = true)
    (htail : ∀ tree ∈ tail, tree.isGap = true ∨ tree.isToken .semicolon = true)
    (hleaf : target.variableToken? = some leaf) (hrest : Tree.keepsWaitingAll rest = true) :
    let walk := useWalk doc table source
    let statement := Tree.assignmentStatement lead inner target rest tail
    let name := doc.tokenText leaf
    let type := resolveDocType state.resolver tag.type
    let plain := walk.run statement { state with pendingType := none }
    let after := walk.runAll (.token comment :: (gap ++ [statement])) state
    after.varTypes.getType name = type ∧
    after.scope.children[state.nextPlace]? =
      some (.reference { mentionOf doc leaf state with type := type }) ∧
    after = (plain.setVariable name type).patchType (some state.nextPlace) type := by
  intro walk statement name type plain after
  obtain ⟨hleading, hinner⟩ := List.forall_mem_append.1 hgaps
  obtain ⟨hgap, hlead⟩ := List.forall_mem_append.1 hleading
  obtain ⟨base, value, hmention, hstatement⟩ :=
    exists_run_statement doc table source hlead hinner htail hleaf hrest state
  have hplain : plain = (base.setVariable name value).patchType (some state.nextPlace) value :=
    hstatement none
  have hafter : after = (base.setVariable name type).patchType (some state.nextPlace) type := by
    rw [← Option.getD_some (a := type) (b := value), ← hstatement (some type)]
    change walk.runAll (.token comment :: (gap ++ [statement])) state = _
    rw [Walk.runAll, run_comment hcomment htags htag hunnamed hplace, Walk.runAll_append,
      runAll_gaps hgap, Walk.runAll, Walk.runAll]
  refine ⟨?_, ?_, ?_⟩
  · rw [hafter]
    exact VariableTable.getType_setType_self _ _ _
  · obtain ⟨others, hothers⟩ := hmention
    rw [hafter]
    change (base.scope.children.modify state.nextPlace (UseState.withType type))[_]? = _
    rw [List.getElem?_modify_eq, ← hothers, List.append_assoc, UseState.nextPlace,
      List.getElem?_append_right (Nat.le_refl _), Nat.sub_self]
    rfl
  · rw [hafter, hplain, setVariable_patchType_again]

/-- What the call of `f` with `$w` is assigned with. -/
def assignedCall : List Tree :=
  [.token ⟨.equals, 23, 1⟩,
    .phrase .functionCallExpression
      [.phrase .qualifiedName [.phrase .namespaceName [.token ⟨.plainName, 25, 1⟩]],
        .token ⟨.openParenthesis, 26, 1⟩,
        .phrase .argumentExpressionList [.phrase .simpleVariable [.token ⟨.variableName, 27, 2⟩]],
        .token ⟨.closeParenthesis, 29, 1⟩]]

/-- A statement that assigns the call to `$v`, behind a comment. -/
def announcedCall : Document :=
  ⟨"a", "<?php /** @var T */ $v = f($w);", .phrase .sourceFile [.phrase .statementList
    [.token ⟨.documentComment, 6, 13⟩, .token ⟨.whitespace, 19, 1⟩,
      Tree.assignmentStatement [] [] (.phrase .simpleVariable [.token ⟨.variableName, 20, 2⟩])
        assignedCall [.token ⟨.semicolon, 30, 1⟩]]]⟩

def unnamedTag : DocTag :=
  { kind := .variableType, type := "T", name := "", description := "" }

/-- The comment gives its type to `$v` though a call with a variable stands in between. -/
theorem assignment_takes_awaited_of_call :
    (DocComment.parse (announcedCall.tokenText ⟨.documentComment, 6, 13⟩)).tags = [unnamedTag] ∧
    announcedCall.tokenText ⟨.variableName, 20, 2⟩ = "$v" ∧
    resolveDocType (UseState.start announcedCall).resolver unnamedTag.type = "T" ∧
    Tree.keepsWaitingAll assignedCall = true ∧
    let walk := useWalk announcedCall (SymbolTable.ofDocument announcedCall) .unknown
    let statement := Tree.assignmentStatement [] []
      (.phrase .simpleVariable [.token ⟨.variableName, 20, 2⟩]) assignedCall
      [.token ⟨.semicolon, 30, 1⟩]
    let name := announcedCall.tokenText ⟨.variableName, 20, 2⟩
    let type := resolveDocType (UseState.start announcedCall).resolver unnamedTag.type
    let plain := walk.run statement { UseState.start announcedCall with pendingType := none }
    let after := walk.runAll (.token ⟨.documentComment, 6, 13⟩ ::
      ([.token ⟨.whitespace, 19, 1⟩] ++ [statement])) (UseState.start announcedCall)
    after.varTypes.getType name = type ∧
    after.scope.children[(UseState.start announcedCall).nextPlace]? =
      some (.reference { mentionOf announcedCall ⟨.variableName, 20, 2⟩
        (UseState.start announcedCall) with type := type }) ∧
    after = (plain.setVariable name type).patchType
      (some (UseState.start announcedCall).nextPlace) type := by
  have htags : (DocComment.parse (announcedCall.tokenText ⟨.documentComment, 6, 13⟩)).tags =
      [unnamedTag] := by
    decide +kernel
  have hgaps : ∀ tree ∈ [Tree.token ⟨.whitespace, 19, 1⟩] ++ [] ++ [], tree.isGap = true := by
    decide +kernel
  have htail : ∀ tree ∈ [Tree.token ⟨.semicolon, 30, 1⟩],
      tree.isGap = true ∨ tree.isToken .semicolon = true := by
    decide +kernel
  have hrest : Tree.keepsWaitingAll assignedCall = true := by decide +kernel
  exact ⟨htags, by decide +kernel, by decide +kernel, hrest,
    assignment_takes_awaited announcedCall (SymbolTable.ofDocument announcedCall) .unknown
      (UseState.start announcedCall) rfl htags rfl rfl rfl hgaps htail rfl hrest⟩

/-- A comment before a statement that assigns to `$v`. -/
def announcedDocument (text : String) (value : Draft) : Document :=
  Snippet.document "a" text
    [Snippet.docComment "/** @var T */",
      Snippet.expressionStatement (Snippet.assignment (Snippet.variableUse "$v") value)]

/-- The braces of a closure take the type back, and an assignment in the value uses it up. -/
theorem awaited_lost_in_value :
    let closure := announcedDocument "<?php /** @var T */ $v = function() \x7b\x7d;"
      (Snippet.closure false [] [] [])
    let nested := announcedDocument "<?php /** @var T */ $v = f($w = 1);"
      (Snippet.call "f" [Snippet.assignment (Snippet.variableUse "$w") (Snippet.literal "1")])
    (DocComment.parse "/** @var T */").tags = [unnamedTag] ∧
    (ReferenceTable.ofDocument closure (SymbolTable.ofDocument closure) .unknown).references.map
        (fun reference => (reference.name, reference.type)) = [("$v", "Closure")] ∧
    (ReferenceTable.ofDocument nested (SymbolTable.ofDocument nested) .unknown).references.map
        (fun reference => (reference.name, reference.type)) =
      [("$v", ""), ("f", ""), ("$w", "T")] := by
  decide +kernel

end Reading

end SymbolIndex
