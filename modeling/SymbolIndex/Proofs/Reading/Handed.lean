import SymbolIndex.Proofs.Reading.Operands

/-!
# What parts hand to the phrase around

A phrase that the walk goes below becomes one part of the phrase around or none,
with the value that is found when the walk leaves it.  With what tokens and the
phrases passed over do this holds for every tree, malformed ones too, so that the
first operand of a phrase can always be told.
-/

namespace SymbolIndex

namespace Reading

variable {doc : Document} {table : SymbolTable} {source : SymbolSource} {state : UseState}

/-! ## Phrases that are gone below -/

section

variable {kind : PhraseKind} {children : List Tree}

/-- A phrase that opens a scope leaves the one around as it was. -/
theorem outer_enterPlain (hopens : opensScope (.phrase kind children) = true) :
    (enterPlain doc table source kind (.phrase kind children) state).outer =
      state.scope :: state.outer := by
  cases kind
  case namespaceDefinition =>
    have hbraced :
        ((Tree.phrase .namespaceDefinition children).childPhrase? .compoundStatement).isSome =
          true := hopens
    rw [enterPlain, namespaceUse]
    rw [if_pos hbraced]
    split
    · rfl
    · rfl
  case functionDeclaration | methodDeclaration | anonymousFunctionCreationExpression |
      classDeclaration | interfaceDeclaration | traitDeclaration => rfl
  all_goals cases hopens

theorem UseState.closeScope_of_outer {around : Scope} {rest : List Scope}
    (houter : state.outer = around :: rest) :
    state.closeScope =
      { state with
        scope := { around with children := around.children ++ [.scope state.scope] }
        outer := rest } := by
  rw [closeScope, houter]

/-- A phrase that opens no scope only adds to the one around. -/
theorem grows_enterPlain (hdescends : descendsForUses kind = true)
    (hplain : opensScope (.phrase kind children) = false) :
    state.Grows [] (enterPlain doc table source kind (.phrase kind children) state) := by
  obtain ⟨parts, hedits⟩ :=
    @exists_edits_enterPlain doc table source kind (.phrase kind children) hplain state
  obtain ⟨houter, hchildren, -⟩ := grows_of_entering hedits
  refine ⟨houter, hchildren, ?_⟩
  rw [frames_enterPlain hdescends, UseState.modifyHead_hand_nil]

variable (doc table source) in
/-- A phrase is left when the walk has gone through its children. -/
theorem run_eq_leaveUse (hdescends : descendsForUses kind = true) (children : List Tree)
    (state : UseState) :
    (useWalk doc table source).run (.phrase kind children) state =
      leaveUse doc source (.phrase kind children) ((useWalk doc table source).runAll children
        (enterUse doc table source kind (.phrase kind children) state)) :=
  Walk.run_of_descends hdescends children state

/-- The frame of a phrase holds what its children have handed up. -/
theorem HandedAll.frames {parts : List Part} (hdescends : descendsForUses kind = true)
    (hhanded : HandedAll doc table source children
      (enterUse doc table source kind (.phrase kind children) state) parts) :
    ((useWalk doc table source).runAll children
      (enterUse doc table source kind (.phrase kind children) state)).frames =
        ⟨kind, parts⟩ :: state.frames := by
  rw [hhanded.grows.frames, enterUse, if_pos hdescends, frames_enterPlain hdescends]
  rfl

/-! ### Values -/

/-- A phrase hands up a value if it always becomes a part. -/
theorem isSome_valueOf {frame : Frame} (hdescends : descendsForUses frame.kind = true)
    (tree : Tree) : (valueOf doc source tree frame state).2.isSome = becomesPart frame.kind := by
  obtain ⟨kind, parts⟩ := frame
  cases kind
  case namespaceDefinition =>
    rw [valueOf]
    dsimp only
    split
    · rfl
    · rfl
  all_goals
    first
    | rfl
    | cases hdescends

theorem exists_typed_assign (frame : Frame) (state : UseState) :
    ∃ type, (assign frame state).2 = .typed type := by
  rw [assign]
  split
  · exact ⟨"", rfl⟩
  · dsimp only
    split
    · exact ⟨_, rfl⟩
    · exact ⟨_, rfl⟩
    · exact ⟨_, rfl⟩

theorem exists_typed_memberAccess (isCall : Bool) (frame : Frame) (state : UseState) :
    ∃ type, (memberAccess doc source isCall frame state).2 = .typed type := by
  rw [memberAccess]
  split
  · exact ⟨"", rfl⟩
  · exact ⟨_, rfl⟩

theorem exists_typed_scopedAccess (kind : SymbolKind) (frame : Frame) (state : UseState) :
    ∃ type, (scopedAccess doc source kind frame state).2 = .typed type := by
  rw [scopedAccess]
  split
  · exact ⟨"", rfl⟩
  · split
    · exact ⟨_, rfl⟩
    · exact ⟨_, rfl⟩

/-- The value of a phrase has a type, and at most names the variable of its first operand. -/
theorem exists_valueOf_eq {frame : Frame} {tree : Tree} {part : Part}
    (hpart : (valueOf doc source tree frame state).2 = some part) :
    (∃ type, part = .typed type) ∨ part = subscriptPart frame := by
  have htyped {result : UseState × Part} (hresult : some result.2 = some part)
      (hexists : ∃ type, result.2 = .typed type) :
      (∃ type, part = .typed type) ∨ part = subscriptPart frame :=
    Or.inl (Option.some.inj hresult ▸ hexists)
  obtain ⟨kind, parts⟩ := frame
  cases kind
  case subscriptExpression => exact Or.inr (Option.some.inj hpart).symm
  case simpleAssignmentExpression | byRefAssignmentExpression =>
    exact htyped hpart (exists_typed_assign _ _)
  case methodCallExpression | propertyAccessExpression =>
    exact htyped hpart (exists_typed_memberAccess _ _ _)
  case scopedCallExpression | scopedPropertyAccessExpression | classConstantAccessExpression =>
    exact htyped hpart (exists_typed_scopedAccess _ _ _)
  case namespaceDefinition =>
    rw [valueOf] at hpart
    dsimp only at hpart
    split at hpart
    · cases hpart
    · cases hpart
  -- The others have a type that is told by their frame, or no value.
  all_goals
    first
    | exact Or.inl ⟨_, (Option.some.inj hpart).symm⟩
    | cases hpart

theorem Frame.first?_eq_find? (frame : Frame) :
    frame.first? = frame.parts.find? (!·.isOperator) := by
  rw [first?, operands, List.head?_filter]

theorem mem_parts_of_first? {frame : Frame} {part : Part} (hpart : frame.first? = some part) :
    part ∈ frame.parts :=
  (List.mem_filter.1 (List.mem_of_mem_head? hpart)).1

def isAssignment : PhraseKind → Bool
  | .simpleAssignmentExpression | .byRefAssignmentExpression => true
  | _ => false

theorem retypes_of_isAssignment (hkind : isAssignment kind = true) : retypes kind = true := by
  cases kind
  case simpleAssignmentExpression | byRefAssignmentExpression => rfl
  all_goals cases hkind

theorem descends_of_retypes (hretypes : retypes kind = true) : descendsForUses kind = true := by
  cases kind
  case simpleAssignmentExpression | byRefAssignmentExpression | foreachValue => rfl
  all_goals cases hretypes

theorem parentKind?_enterUse (hdescends : descendsForUses kind = true) (tree : Tree) :
    (enterUse doc table source kind tree state).parentKind? = some kind := by
  rw [enterUse, if_pos hdescends]
  rfl

variable (doc table source state) in
theorem declaresMember_of_retypes (hretypes : retypes kind = true) (tree : Tree) :
    (enterUse doc table source kind tree state).parentKind?.any declaresMember = false := by
  rw [parentKind?_enterUse (descends_of_retypes hretypes)]
  cases kind
  case simpleAssignmentExpression | byRefAssignmentExpression | foreachValue => rfl
  all_goals cases hretypes

theorem opensScope_of_retypes (hretypes : retypes kind = true) (children : List Tree) :
    opensScope (.phrase kind children) = false := by
  cases kind
  case simpleAssignmentExpression | byRefAssignmentExpression | foreachValue => rfl
  all_goals cases hretypes

/-- Leaving a phrase that opens no scope changes nothing that was there when it
was entered, if the mention of its target is one since. -/
theorem UseState.Grows.valueOf {before : UseState} {frame : Frame} (hgrows : before.Grows [] state)
    (hplain : opensScope (.phrase frame.kind children) = false)
    (hplaces : ∀ place, (Allowed.leaving doc (.phrase frame.kind children) frame).places place →
      before.nextPlace ≤ place) :
    before.Grows [] (Reading.valueOf doc source (.phrase frame.kind children) frame state).1 := by
  have hedits : state.Edits (.leaving doc (.phrase frame.kind children) frame) []
      (Reading.valueOf doc source (.phrase frame.kind children) frame state).1 :=
    edits_valueOf hplain
  exact hedits.grows hgrows hplaces

/-- Leaving any other phrase that opens no scope changes nothing that is there. -/
theorem grows_valueOf {frame : Frame} (hretypes : retypes frame.kind = false)
    (hplain : opensScope (.phrase frame.kind children) = false) :
    state.Grows [] (valueOf doc source (.phrase frame.kind children) frame state).1 := by
  refine (UseState.Grows.refl state).valueOf hplain fun place hplace => ?_
  exact nomatch hretypes.symm.trans hplace.1

/-- Nor does leaving one without a target. -/
theorem grows_valueOf_of_no_target {frame : Frame} (hretypes : retypes frame.kind = true)
    (htarget : frame.target? = none) :
    state.Grows [] (valueOf doc source (.phrase frame.kind children) frame state).1 := by
  refine (UseState.Grows.refl state).valueOf (opensScope_of_retypes hretypes children) ?_
  rintro place ⟨-, part, name, hsome, -⟩
  exact nomatch htarget.symm.trans hsome

/-- The first of some children that is an operand is a plain variable. -/
structure TargetIn (children earlier : List Tree) (occurrence : Tree) (later : List Tree)
    (leaf : Token) : Prop where
  split : children = earlier ++ occurrence :: later
  first : ∀ tree ∈ earlier, tree.isOperand = false
  plain : occurrence.variableToken? = some leaf

section

variable {parts : List Part} (hretypes : retypes kind = true)
  (hhanded : HandedAll doc table source children
    (enterUse doc table source kind (.phrase kind children) state) parts)
include hretypes hhanded

/-- A plain variable that is the first operand stands first among the children that are operands. -/
theorem HandedAll.exists_targetIn {part : Part} (hfirst : (Frame.mk kind parts).first? = some part)
    (hphrase : part.phrase = some .simpleVariable) :
    ∃ earlier occurrence later leaf, TargetIn children earlier occurrence later leaf ∧
      part = variablePart doc leaf ((useWalk doc table source).runAll earlier
        (enterUse doc table source kind (.phrase kind children) state)) := by
  rw [Frame.first?_eq_find?] at hfirst
  obtain ⟨earlier, occurrence, later, handed, hsplit, hearlier, -, hby, hmem⟩ :=
    hhanded.exists_split_of_find? (declaresMember_of_retypes _ _ _ _ hretypes _) hfirst
  obtain ⟨leaf, hleaf, rfl⟩ := hby.exists_variableToken? hmem hphrase
  exact ⟨earlier, occurrence, later, leaf, ⟨hsplit, hearlier, hleaf⟩, rfl⟩

/-- And the other way round. -/
theorem HandedAll.target?_eq_some {earlier later : List Tree} {occurrence : Tree} {leaf : Token}
    (htarget : TargetIn children earlier occurrence later leaf) :
    (Frame.mk kind parts).target? =
      some (variablePart doc leaf ((useWalk doc table source).runAll earlier
        (enterUse doc table source kind (.phrase kind children) state)), doc.tokenText leaf) := by
  have hfirst := Frame.first?_eq_find? ⟨kind, parts⟩
  rw [htarget.split] at hhanded
  rw [hhanded.find?_eq_some (declaresMember_of_retypes _ _ _ _ hretypes _) htarget.first
    htarget.plain, ← htarget.split] at hfirst
  exact Frame.target?_eq_some.2 ⟨hfirst, rfl, rfl⟩

end

/-- A phrase that gives a type to its target sets the type of the variable and of
the mention at the place of the target. -/
theorem exists_valueOf_of_target {frame : Frame} (tree : Tree)
    (hretypes : retypes frame.kind = true) {part : Part} {name : String}
    (htarget : frame.target? = some (part, name)) :
    ∃ pending type, (valueOf doc source tree frame state).1 =
      ({ state with pendingType := pending }.setVariable name type).patchType part.reference
        type := by
  obtain ⟨hfirst, hphrase, hname⟩ := Frame.target?_eq_some.1 htarget
  obtain ⟨kind, parts⟩ := frame
  cases kind
  case simpleAssignmentExpression | byRefAssignmentExpression =>
    obtain ⟨rest, hoperands⟩ := List.head?_eq_some_iff.1 hfirst
    refine ⟨none, state.pendingType.getD ((rest.getLast?.map (·.type)).getD ""), ?_⟩
    change (assign _ state).1 = _
    rw [assign, hoperands]
    dsimp only
    rw [hphrase, hname]
  case foreachValue =>
    refine ⟨state.pendingType,
      TypeExpr.element ((state.frames.head?.map (·.typeOf .foreachCollection)).getD ""), ?_⟩
    change loopValue _ state = _
    rw [loopValue, hfirst]
    dsimp only
    rw [plainVariable?_eq_some.2 ⟨hphrase, hname⟩]
  all_goals cases hretypes

/-- From entering a phrase to leaving it. -/
theorem grows_value {parts : List Part} (hdescends : descendsForUses kind = true)
    (hhanded : HandedAll doc table source children
      (enterUse doc table source kind (.phrase kind children) state) parts) :
    state.Grows [] (valueOf doc source (.phrase kind children) ⟨kind, parts⟩
      { (useWalk doc table source).runAll children
          (enterUse doc table source kind (.phrase kind children) state) with
        frames := state.frames }).1 := by
  have hentered : enterUse doc table source kind (.phrase kind children) state =
      { enterPlain doc table source kind (.phrase kind children) state with
        frames := { kind := kind } :: state.frames } := by
    rw [enterUse, if_pos hdescends, frames_enterPlain hdescends]
  have hgrows := hhanded.grows
  have hplaces := @HandedAll.nextPlace_le doc table source _ children parts hhanded
  generalize (useWalk doc table source).runAll children _ = inside at hgrows ⊢
  rw [hentered] at hgrows hplaces
  cases hopens : opensScope (.phrase kind children) with
  | true =>
      obtain ⟨hscope, houter, hframes⟩ :=
        @closes_valueOf doc source (.phrase kind children) ⟨kind, parts⟩
          { inside with frames := state.frames } hopens
      have hclosed := @UseState.closeScope_of_outer { inside with frames := state.frames } _ _
        (hgrows.outer.trans (outer_enterPlain hopens))
      rw [hclosed] at hscope houter
      refine ⟨houter, ?_, ?_⟩
      · rw [hscope]
        exact List.prefix_append _ _
      · rw [hframes, frames_closeScope, UseState.modifyHead_hand_nil]
  | false =>
      have hplain : state.Grows []
          (enterPlain doc table source kind (.phrase kind children) state) :=
        grows_enterPlain hdescends hopens
      have hinside : state.Grows [] { inside with frames := state.frames } :=
        ⟨hgrows.outer.trans hplain.outer, hplain.children.trans hgrows.children,
          (UseState.modifyHead_hand_nil _).symm⟩
      refine hinside.valueOf hopens ?_
      rintro place ⟨-, part, name, htarget, hplace⟩
      obtain ⟨hfirst, hphrase, -⟩ := Frame.target?_eq_some.1 htarget
      exact Nat.le_trans hplain.nextPlace_le
        (hplaces (mem_parts_of_first? hfirst) hphrase hplace)

theorem leaveUse_eq {frame : Frame} {rest : List Frame} {inside : UseState} (tree : Tree)
    (hframes : inside.frames = frame :: rest) :
    leaveUse doc source tree inside =
      let value := valueOf doc source tree frame { inside with frames := rest }
      value.2.elim value.1 fun part =>
        value.1.pushPart { part with phrase := some frame.kind } := by
  rw [leaveUse, hframes]
  dsimp only
  split
  · rename_i hvalue
    rw [hvalue]
    rfl
  · rename_i hvalue
    rw [hvalue]
    rfl

/-- Handing up what a phrase is changes no more than its value does. -/
theorem leaveUse_same {frame : Frame} {rest : List Frame} {inside : UseState} {tree : Tree}
    (hframes : inside.frames = frame :: rest) :
    let value := (valueOf doc source tree frame { inside with frames := rest }).1
    (leaveUse doc source tree inside).scope = value.scope ∧
      (leaveUse doc source tree inside).outer = value.outer ∧
      (leaveUse doc source tree inside).varTypes = value.varTypes := by
  rw [leaveUse_eq tree hframes]
  dsimp only
  cases (valueOf doc source tree frame { inside with frames := rest }).2 with
  | none => exact ⟨rfl, rfl, rfl⟩
  | some part =>
      obtain ⟨hscope, houter⟩ := UseState.scopes_pushPart
        (valueOf doc source tree frame { inside with frames := rest }).1
        { part with phrase := some frame.kind }
      exact ⟨hscope, houter, UseState.varTypes_pushPart _ _⟩

/-- A phrase that the walk goes below is no variable, and its kind tells if it is an operand. -/
theorem isOperand_of_descends (hdescends : descendsForUses kind = true) :
    (Tree.phrase kind children).isOperand = becomesPart kind ∧
      (Tree.phrase kind children).variableToken? = none := by
  cases kind
  case simpleVariable => cases hdescends
  all_goals exact ⟨rfl, rfl⟩

/-- A phrase hands up what its value is, if it has one. -/
theorem exists_handedBy_phrase {parts : List Part} (hdescends : descendsForUses kind = true)
    (hhanded : HandedAll doc table source children
      (enterUse doc table source kind (.phrase kind children) state) parts) :
    ∃ handed, HandedBy doc table source (.phrase kind children) state handed := by
  have hvalue := grows_value hdescends hhanded
  have hoperand : (valueOf doc source (.phrase kind children) ⟨kind, parts⟩
      { (useWalk doc table source).runAll children
          (enterUse doc table source kind (.phrase kind children) state) with
        frames := state.frames }).2.isSome = becomesPart kind :=
    isSome_valueOf hdescends _
  obtain ⟨hshape, hleaf⟩ := @isOperand_of_descends kind children hdescends
  have hrun := run_eq_leaveUse doc table source hdescends children state
  rw [leaveUse_eq _ (hhanded.frames hdescends)] at hrun
  dsimp only at hrun
  cases hpart : (valueOf doc source (.phrase kind children) ⟨kind, parts⟩
      { (useWalk doc table source).runAll children
          (enterUse doc table source kind (.phrase kind children) state) with
        frames := state.frames }).2 with
  | none =>
      rw [hpart] at hrun hoperand
      refine ⟨[], ⟨?_, fun _ => ?_, fun leaf hplain => (nomatch hleaf.symm.trans hplain),
        fun _ part hmem => absurd hmem List.not_mem_nil,
        fun part hmem => absurd hmem List.not_mem_nil⟩⟩
      · rw [hrun]
        exact hvalue
      · rw [hshape, ← hoperand]
        rfl
  | some part =>
      rw [hpart] at hrun hoperand
      refine ⟨[{ part with phrase := some kind }], ⟨?_, fun _ => ?_,
        fun leaf hplain => (nomatch hleaf.symm.trans hplain), fun _ other hmem hphrase => ?_,
        fun other hmem name hname => ?_⟩⟩
      · rw [hrun]
        exact hvalue.pushPart _
      · rw [hshape, ← hoperand]
        rcases exists_valueOf_eq hpart with ⟨type, rfl⟩ | rfl
        · rfl
        · rfl
      · cases List.mem_singleton.1 hmem
        cases Option.some.inj hphrase
        cases hdescends
      · cases List.mem_singleton.1 hmem
        rcases exists_valueOf_eq hpart with ⟨type, rfl⟩ | rfl
        · cases hname
        · obtain ⟨first, hfirst, hplain⟩ := Option.bind_eq_some_iff.1 hname
          obtain ⟨child, hchild, hmentions⟩ := hhanded.exists_mentions
            (mem_parts_of_first? hfirst) (plainVariable?_eq_some.1 hplain).2
          exact Tree.mentions_of_mem_children hchild hmentions

end

/-! ## The walk -/

variable (doc table source) in
/-- Each tree hands some parts up. -/
theorem useWalk_inducts_handed : (useWalk doc table source).Inducts
    (fun tree state => ∃ parts, HandedBy doc table source tree state parts)
    (fun trees state => ∃ parts, HandedAll doc table source trees state parts) where
  token leaf state := ⟨_, handedBy_token leaf state⟩
  passed kind children state hpasses := exists_handedBy_passed hpasses children state
  phrase kind children state hdescends hchildren := by
    obtain ⟨parts, hhanded⟩ := hchildren
    exact exists_handedBy_phrase hdescends hhanded
  nil state := ⟨[], HandedAll.nil state⟩
  cons tree rest state htree hrest := by
    obtain ⟨parts, hfirst⟩ := htree
    obtain ⟨more, hlater⟩ := hrest
    exact ⟨parts ++ more, hlater.cons hfirst⟩

variable (doc table source) in
theorem exists_handedBy (tree : Tree) (state : UseState) :
    ∃ parts, HandedBy doc table source tree state parts :=
  (useWalk_inducts_handed doc table source).tree tree state

variable (doc table source) in
theorem exists_handedAll (trees : List Tree) (state : UseState) :
    ∃ parts, HandedAll doc table source trees state parts :=
  (useWalk_inducts_handed doc table source).trees trees state

variable (doc table source) in
/-- Behind a plain variable its mention stands at the end of the scope, and stays there. -/
theorem mention_stays {occurrence : Tree} {leaf : Token}
    (hleaf : occurrence.variableToken? = some leaf) (later : List Tree) (arrived : UseState) :
    let inside := (useWalk doc table source).runAll (occurrence :: later) arrived
    inside.outer = arrived.outer ∧
      arrived.scope.children ++ [.reference (mentionOf doc leaf arrived)] <+:
        inside.scope.children := by
  obtain ⟨parts, hhanded⟩ := exists_handedAll doc table source later
    ((useWalk doc table source).run occurrence arrived)
  have hgrows := hhanded.grows
  rw [Walk.runAll]
  rw [run_of_variableToken? hleaf] at hgrows ⊢
  obtain ⟨hscope, houter⟩ := UseState.scopes_pushPart (arrived.emit (mentionOf doc leaf arrived))
    (variablePart doc leaf arrived)
  have hchildren := hgrows.children
  rw [hscope] at hchildren
  exact ⟨hgrows.outer.trans houter, hchildren⟩

end Reading

end SymbolIndex
