import SymbolIndex.Proofs.Reading.Scopes

/-!
# Operands of a phrase

A phrase learns of the parts below it from what they hand up while the walk goes
through them.  Most shapes of a part hand up one thing, some hand up nothing, and
which of them do is told by the part alone.  The scopes around are the same before
and after a part of a tree, and what was in the innermost one stays at its place.
So the first operand of a phrase is what its first child that is an operand has
handed up.  Tokens and the phrases that the walk passes over are shown to do so
here.
-/

namespace SymbolIndex

/-! ## Operands -/

namespace Reading

/-- Phrases that become a part of the phrase around, whatever is below them. -/
def becomesPart : PhraseKind → Bool
  | .anonymousFunctionCreationExpression | .simpleAssignmentExpression
  | .byRefAssignmentExpression | .compoundAssignmentExpression | .objectCreationExpression
  | .classTypeDesignator | .instanceofTypeDesignator | .relativeScope | .methodCallExpression
  | .propertyAccessExpression | .scopedCallExpression | .scopedPropertyAccessExpression
  | .classConstantAccessExpression | .functionCallExpression | .subscriptExpression
  | .encapsulatedExpression | .constantAccessExpression | .cloneExpression | .arrayValue
  | .foreachCollection | .arrayElement | .arrayInitialiserList | .arrayCreationExpression
  | .ternaryExpression | .binaryExpression | .unaryExpression | .instanceOfExpression
  | .catchNameList | .qualifiedName | .fullyQualifiedName | .relativeQualifiedName | .memberName
  | .scopedMemberName | .identifier => true
  | _ => false

end Reading

namespace Tree

/-- The token of a plain variable.  A variable whose name is itself given by a
variable or an expression has none. -/
def variableToken? : Tree → Option Token
  | phrase .simpleVariable children => (phrase .simpleVariable children).childToken? .variableName
  | _ => none

/-- Trees that hand a value to the phrase around: literals, plain variables, and
the phrases that always become a part. -/
def isOperand : Tree → Bool
  | token leaf =>
    match leaf.kind with
    | .integerLiteral | .floatingLiteral | .stringLiteral => true
    | _ => false
  | phrase .simpleVariable children => (phrase .simpleVariable children).variableToken?.isSome
  | phrase kind _ => Reading.becomesPart kind

/-- A variable of a name occurs in the tree, at any depth. -/
def mentions (doc : Document) (name : String) (tree : Tree) : Bool :=
  tree.tokens.any fun leaf => leaf.kind == .variableName && doc.tokenText leaf == name

variable {doc : Document} {tree : Tree} {name : String}

theorem mentions_iff : tree.mentions doc name = true ↔
    ∃ leaf ∈ tree.tokens, leaf.kind = .variableName ∧ doc.tokenText leaf = name := by
  simp only [mentions, List.any_eq_true, Bool.and_eq_true, beq_iff_eq]

theorem mentions_of_mem_children {child : Tree} (hchild : child ∈ tree.children)
    (hmentions : child.mentions doc name = true) : tree.mentions doc name = true := by
  obtain ⟨leaf, hleaf, hname⟩ := mentions_iff.1 hmentions
  have hsublist := tokens_sublist_of_mem_parts tree (mem_parts_of_mem_children hchild)
  exact mentions_iff.2 ⟨leaf, hsublist.subset hleaf, hname⟩

/-- Only a phrase of the one kind is a plain variable. -/
theorem exists_children_of_variableToken? {leaf : Token}
    (hleaf : tree.variableToken? = some leaf) :
    ∃ children, tree = phrase .simpleVariable children ∧
      (phrase .simpleVariable children).childToken? .variableName = some leaf := by
  unfold variableToken? at hleaf
  split at hleaf
  · exact ⟨_, rfl, hleaf⟩
  · cases hleaf

theorem mentions_of_variableToken? {leaf : Token} (hleaf : tree.variableToken? = some leaf) :
    tree.mentions doc (doc.tokenText leaf) = true := by
  obtain ⟨children, rfl, hchild⟩ := exists_children_of_variableToken? hleaf
  obtain ⟨hmem, hkind⟩ := mem_children_of_childToken? hchild
  exact mentions_iff.2 ⟨leaf, mem_tokens_of_mem_children hmem, hkind, rfl⟩

theorem isOperand_of_variableToken? {leaf : Token} (hleaf : tree.variableToken? = some leaf) :
    tree.isOperand = true := by
  obtain ⟨children, rfl, -⟩ := exists_children_of_variableToken? hleaf
  rw [isOperand, hleaf]
  rfl

end Tree

namespace Reading

variable {doc : Document} {table : SymbolTable} {source : SymbolSource}

/-! ## Mentions of variables -/

/-- The reference that is emitted where the walk comes to a plain variable. -/
def mentionOf (doc : Document) (leaf : Token) (state : UseState) : Reference :=
  let name := doc.tokenText leaf
  let known := state.varTypes.getType name
  { kind := .localVariable, name := name
    type := if known = "" ∧ name = "$this" then state.className else known
    location := doc.location (doc.tokenRange leaf) }

/-- What a plain variable hands up: its type, and at which place of its scope it
is mentioned. -/
def variablePart (doc : Document) (leaf : Token) (state : UseState) : Part :=
  { phrase := some .simpleVariable, type := (mentionOf doc leaf state).type
    text := doc.tokenText leaf, range := doc.tokenRange leaf
    variableName := some (doc.tokenText leaf), reference := some state.nextPlace }

/-- At a plain variable the walk emits its mention and hands it up. -/
theorem run_of_variableToken? {tree : Tree} {leaf : Token}
    (hleaf : tree.variableToken? = some leaf) (state : UseState) :
    (useWalk doc table source).run tree state =
      (state.emit (mentionOf doc leaf state)).pushPart (variablePart doc leaf state) := by
  obtain ⟨children, rfl, hchild⟩ := Tree.exists_children_of_variableToken? hleaf
  rw [Walk.run_of_passes (by rfl)]
  change simpleVariable doc (.phrase .simpleVariable children) state = _
  rw [simpleVariable, hchild]
  rfl

/-! ## States that grow -/

/-- Adds parts to a frame. -/
def Frame.hand (parts : List Part) (frame : Frame) : Frame :=
  { frame with parts := frame.parts ++ parts }

theorem Frame.hand_nil (frame : Frame) : frame.hand [] = frame := by
  rw [hand, List.append_nil]

namespace UseState

/-- Between the states before and after a part of a tree: the scopes around are
the same, the innermost one has only been added to at its end, and the parts have
been handed to the innermost frame. -/
structure Grows (before : UseState) (parts : List Part) (after : UseState) : Prop where
  outer : after.outer = before.outer
  children : before.scope.children <+: after.scope.children
  frames : after.frames = before.frames.modifyHead (Frame.hand parts)

theorem modifyHead_hand_nil (frames : List Frame) :
    frames.modifyHead (Frame.hand []) = frames := by
  cases frames with
  | nil => rfl
  | cons frame rest => rw [List.modifyHead_cons, Frame.hand_nil]

/-- Only scopes and frames matter. -/
theorem grows_of_same {before after : UseState} (hscope : after.scope = before.scope)
    (houter : after.outer = before.outer) (hframes : after.frames = before.frames) :
    before.Grows [] after where
  outer := houter
  children := hscope ▸ List.prefix_rfl
  frames := by rw [hframes, modifyHead_hand_nil]

namespace Grows

variable {before state after : UseState} {parts more : List Part}

theorem refl (state : UseState) : state.Grows [] state :=
  grows_of_same rfl rfl rfl

theorem trans (hleft : before.Grows parts state) (hright : state.Grows more after) :
    before.Grows (parts ++ more) after where
  outer := hright.outer.trans hleft.outer
  children := hleft.children.trans hright.children
  frames := by
    rw [hright.frames, hleft.frames, List.modifyHead_modifyHead]
    congr 1
    funext frame
    rw [Function.comp_apply, Frame.hand, Frame.hand, Frame.hand, List.append_assoc]

/-- Places in the innermost scope are given out in order. -/
theorem nextPlace_le (hgrows : before.Grows parts after) : before.nextPlace ≤ after.nextPlace :=
  hgrows.children.length_le

/-- The phrase that is being read stays the same. -/
theorem parentKind?_eq (hgrows : before.Grows parts after) :
    after.parentKind? = before.parentKind? := by
  rw [UseState.parentKind?, UseState.parentKind?, hgrows.frames, List.head?_modifyHead,
    Option.map_map]
  rfl

variable (hgrows : before.Grows parts state)
include hgrows

theorem congr (hscope : after.scope = state.scope) (houter : after.outer = state.outer)
    (hframes : after.frames = state.frames) : before.Grows parts after := by
  have hsame := hgrows.trans (grows_of_same hscope houter hframes)
  rwa [List.append_nil] at hsame

theorem emit (reference : Reference) : before.Grows parts (state.emit reference) :=
  { hgrows with children := hgrows.children.trans (List.prefix_append _ _) }

theorem pushPart (part : Part) : before.Grows (parts ++ [part]) (state.pushPart part) := by
  refine hgrows.trans ?_
  rw [UseState.pushPart]
  split
  · rename_i hframes
    exact ⟨rfl, List.prefix_rfl, by rw [hframes]; rfl⟩
  · rename_i frame rest hframes
    exact ⟨rfl, List.prefix_rfl, by rw [hframes]; rfl⟩

/-- A type may be given to what has been emitted since. -/
theorem patchType {place : Option Nat} (type : String)
    (hplace : ∀ index, place = some index → before.nextPlace ≤ index) :
    before.Grows parts (state.patchType place type) := by
  cases place with
  | none => exact hgrows
  | some index =>
      refine { hgrows with children := ?_ }
      rw [UseState.patchType]
      dsimp only
      rw [List.modify_eq_take_drop]
      exact (List.prefix_take_iff.2 ⟨hgrows.children, hplace index rfl⟩).trans
        (List.prefix_append _ _)

end Grows

/-- Edits that give types only to references behind the first of some states. -/
theorem Edits.grows {allowed : Allowed} {start before state : UseState} {parts : List Part}
    (hedits : before.Edits allowed parts state) (hstart : start.Grows [] before)
    (hplaces : ∀ place, allowed.places place → start.nextPlace ≤ place) :
    start.Grows parts state := by
  induction hedits with
  | refl => exact hstart
  | emit _ _ ih => exact ih.emit _
  | pushPart _ _ ih => exact ih.pushPart _
  | patchType _ hplace _ ih =>
      refine ih.patchType _ fun index hindex => ?_
      cases hindex
      exact hplaces _ hplace
  -- The others leave scopes and frames as they are.
  | setVariable _ _ _ ih | setLevels _ _ _ ih | setPending _ _ ih | setResolver _ _ ih =>
      exact ih.congr rfl rfl rfl

theorem scopes_pushPart (state : UseState) (part : Part) :
    (state.pushPart part).scope = state.scope ∧ (state.pushPart part).outer = state.outer := by
  rw [pushPart]
  split
  · exact ⟨rfl, rfl⟩
  · exact ⟨rfl, rfl⟩

theorem varTypes_pushPart (state : UseState) (part : Part) :
    (state.pushPart part).varTypes = state.varTypes := by
  rw [pushPart]
  split
  · rfl
  · rfl

end UseState

/-! ## Tokens and phrases that are passed over -/

variable {state : UseState}

theorem grows_useToken (leaf : Token) (state : UseState) :
    state.Grows (tokenParts doc leaf) (useToken doc table leaf state) :=
  (edits_useToken leaf state).grows (.refl state) fun _ hnone => False.elim hnone

theorem grows_of_entering {parts : List Part} {kind : PhraseKind} {tree : Tree}
    {after : UseState} (hedits : state.Edits (.entering doc kind tree) parts after) :
    state.Grows parts after :=
  hedits.grows (.refl state) fun _ hnone => False.elim hnone

/-- No token hands up a variable, and the literals are the operands. -/
theorem of_mem_tokenParts {leaf : Token} {part : Part} (hpart : part ∈ tokenParts doc leaf) :
    part.phrase = none ∧ part.variableName = none := by
  unfold tokenParts at hpart
  split at hpart
  case h_5 => exact absurd hpart List.not_mem_nil
  all_goals
    cases List.mem_singleton.1 hpart
    exact ⟨rfl, rfl⟩

theorem any_tokenParts (leaf : Token) :
    (tokenParts doc leaf).any (!·.isOperator) = (Tree.token leaf).isOperand := by
  obtain ⟨kind, offset, length⟩ := leaf
  cases kind
  all_goals rfl

/-! ## What a tree hands up -/

variable (doc table source) in
/-- The parts that a tree hands up where the walk comes to it in a state. -/
structure HandedBy (tree : Tree) (before : UseState) (parts : List Part) : Prop where
  grows : before.Grows parts ((useWalk doc table source).run tree before)
  operand : before.parentKind?.any declaresMember = false →
    parts.any (!·.isOperator) = tree.isOperand
  plain : ∀ leaf, tree.variableToken? = some leaf → parts = [variablePart doc leaf before]
  other : tree.variableToken? = none → ∀ part ∈ parts, part.phrase ≠ some .simpleVariable
  names : ∀ part ∈ parts, ∀ name, part.variableName = some name → tree.mentions doc name = true

/-- A variable is handed up only where it is a plain one. -/
theorem HandedBy.exists_variableToken? {tree : Tree} {parts : List Part}
    (hhanded : HandedBy doc table source tree state parts) {part : Part} (hpart : part ∈ parts)
    (hphrase : part.phrase = some .simpleVariable) :
    ∃ leaf, tree.variableToken? = some leaf ∧ part = variablePart doc leaf state := by
  cases hleaf : tree.variableToken? with
  | none => exact absurd hphrase (hhanded.other hleaf part hpart)
  | some leaf =>
      rw [hhanded.plain leaf hleaf] at hpart
      exact ⟨leaf, rfl, List.mem_singleton.1 hpart⟩

variable (doc table source) in
/-- The parts that trees one after the other hand up. -/
inductive HandedAll : List Tree → UseState → List Part → Prop
  | nil (state : UseState) : HandedAll [] state []
  | cons {tree : Tree} {rest : List Tree} {state : UseState} {parts more : List Part}
      (hfirst : HandedBy doc table source tree state parts)
      (hrest : HandedAll rest ((useWalk doc table source).run tree state) more) :
      HandedAll (tree :: rest) state (parts ++ more)

theorem handedBy_token (leaf : Token) (state : UseState) :
    HandedBy doc table source (.token leaf) state (tokenParts doc leaf) where
  grows := by
    rw [Walk.run_token]
    exact grows_useToken leaf state
  operand _ := any_tokenParts leaf
  plain _ hleaf := nomatch hleaf
  other _ part hpart hphrase := by
    rw [(of_mem_tokenParts hpart).1] at hphrase
    cases hphrase
  names part hpart name hname := by
    rw [(of_mem_tokenParts hpart).2] at hname
    cases hname

section

variable {kind : PhraseKind} {children : List Tree}

/-- A phrase that is passed over and hands up no variable. -/
theorem handedBy_passed {parts : List Part} (hpasses : descendsForUses kind = false)
    (hleaf : (Tree.phrase kind children).variableToken? = none)
    (hgrows : state.Grows parts (enterPlain doc table source kind (.phrase kind children) state))
    (hoperand : state.parentKind?.any declaresMember = false →
      parts.any (!·.isOperator) = (Tree.phrase kind children).isOperand)
    (hparts : ∀ part ∈ parts, part.phrase ≠ some .simpleVariable ∧ part.variableName = none) :
    HandedBy doc table source (.phrase kind children) state parts where
  grows := by
    rw [Walk.run_of_passes hpasses]
    change state.Grows parts (enterUse doc table source kind (.phrase kind children) state)
    rw [enterUse, if_neg (Bool.eq_false_iff.1 hpasses)]
    exact hgrows
  operand := hoperand
  plain leaf hplain := nomatch hleaf.symm.trans hplain
  other _ part hpart := (hparts part hpart).1
  names part hpart name hname := by
    rw [(hparts part hpart).2] at hname
    cases hname

/-- A phrase for a variable hands up the variable, if it is a plain one. -/
theorem handedBy_simpleVariable (children : List Tree) (state : UseState) :
    HandedBy doc table source (.phrase .simpleVariable children) state
      ((Tree.phrase .simpleVariable children).variableToken?.toList.map
        (variablePart doc · state)) := by
  cases hleaf : (Tree.phrase .simpleVariable children).variableToken? with
  | none =>
      refine handedBy_passed rfl hleaf ?_ (fun _ => ?_) fun part hpart =>
        absurd hpart List.not_mem_nil
      · change state.Grows [] (simpleVariable doc (.phrase .simpleVariable children) state)
        rw [simpleVariable, show Tree.childToken? _ _ = none from hleaf]
        exact UseState.Grows.refl state
      · rw [Tree.isOperand, hleaf]
        rfl
  | some leaf =>
      have hrun : (useWalk doc table source).run (.phrase .simpleVariable children) state =
          (state.emit (mentionOf doc leaf state)).pushPart (variablePart doc leaf state) :=
        run_of_variableToken? hleaf state
      refine ⟨?_, fun _ => ?_, fun other hother => ?_, fun hnone => ?_,
        fun part hpart name hname => ?_⟩
      · rw [hrun]
        exact ((UseState.Grows.refl state).emit _).pushPart _
      · rw [Tree.isOperand_of_variableToken? hleaf]
        rfl
      · cases hleaf.symm.trans hother
        rfl
      · cases hleaf.symm.trans hnone
      · rw [List.mem_singleton.1 hpart] at hname
        cases hname
        exact Tree.mentions_of_variableToken? hleaf

theorem exists_handedBy_passed (hpasses : descendsForUses kind = false) (children : List Tree)
    (state : UseState) :
    ∃ parts, HandedBy doc table source (.phrase kind children) state parts := by
  have hrefl := UseState.Grows.refl state
  have hnamed := @exists_edits_nameUse doc source kind (.phrase kind children)
  cases kind
  case simpleVariable => exact ⟨_, handedBy_simpleVariable children state⟩
  case identifier =>
    obtain ⟨parts, hedits, hparts, hoperand⟩ :=
      @exists_edits_identifierUse doc .identifier (.phrase .identifier children) rfl state
    refine ⟨parts, handedBy_passed rfl rfl (grows_of_entering hedits) hoperand
      fun part hpart => ?_⟩
    obtain ⟨hphrase, hname⟩ := hparts part hpart
    exact ⟨fun hvariable => (nomatch hphrase.symm.trans hvariable), hname⟩
  case qualifiedName | fullyQualifiedName | relativeQualifiedName =>
    obtain ⟨part, hedits, hoperator, hname, hphrase⟩ := hnamed rfl state
    refine ⟨[part], handedBy_passed rfl rfl (grows_of_entering hedits) (fun _ => ?_)
      fun other hother => ?_⟩
    · rw [List.any_cons, hoperator]
      rfl
    · cases List.mem_singleton.1 hother
      refine ⟨fun hvariable => ?_, hname⟩
      rcases hphrase with hnone | hkind
      · exact nomatch hnone.symm.trans hvariable
      · exact nomatch hkind.symm.trans hvariable
  case scopedMemberName | memberName =>
    refine ⟨_, handedBy_passed rfl rfl (hrefl.pushPart _) (fun _ => rfl) fun part hpart => ?_⟩
    cases List.mem_singleton.1 hpart
    exact ⟨nofun, rfl⟩
  case error | namespaceName =>
    exact ⟨[], handedBy_passed rfl rfl hrefl (fun _ => rfl) fun part hpart =>
      absurd hpart List.not_mem_nil⟩
  case namespaceUseDeclaration =>
    refine ⟨[], handedBy_passed rfl rfl ?_ (fun _ => rfl) fun part hpart =>
      absurd hpart List.not_mem_nil⟩
    exact grows_of_entering (edits_importUses _ state)
  all_goals cases hpasses

end

/-! ## What children hand up -/

namespace HandedAll

variable {trees : List Tree} {parts : List Part}

theorem grows (hhanded : HandedAll doc table source trees state parts) :
    state.Grows parts ((useWalk doc table source).runAll trees state) := by
  induction hhanded with
  | nil state =>
      rw [Walk.runAll]
      exact UseState.Grows.refl state
  | cons hfirst _ ih =>
      rw [Walk.runAll]
      exact hfirst.grows.trans ih

/-- Every variable in what is handed up is mentioned. -/
theorem exists_mentions (hhanded : HandedAll doc table source trees state parts) {part : Part}
    (hpart : part ∈ parts) {name : String} (hname : part.variableName = some name) :
    ∃ tree ∈ trees, tree.mentions doc name = true := by
  induction hhanded with
  | nil state => exact absurd hpart List.not_mem_nil
  | cons hfirst _ ih =>
      rcases List.mem_append.1 hpart with hpart | hpart
      · exact ⟨_, List.mem_cons_self, hfirst.names part hpart name hname⟩
      · obtain ⟨tree, htree, hmentions⟩ := ih hpart
        exact ⟨tree, List.mem_cons_of_mem _ htree, hmentions⟩

/-- A variable that is handed up is mentioned behind what was there before. -/
theorem nextPlace_le (hhanded : HandedAll doc table source trees state parts) {part : Part}
    (hpart : part ∈ parts) (hphrase : part.phrase = some .simpleVariable) {place : Nat}
    (hplace : part.reference = some place) : state.nextPlace ≤ place := by
  induction hhanded with
  | nil state => exact absurd hpart List.not_mem_nil
  | cons hfirst _ ih =>
      rcases List.mem_append.1 hpart with hpart | hpart
      · obtain ⟨leaf, -, rfl⟩ := hfirst.exists_variableToken? hpart hphrase
        cases hplace
        exact Nat.le_refl _
      · exact Nat.le_trans hfirst.grows.nextPlace_le (ih hpart)

/-- Trees hand an operand up if one of them is an operand. -/
theorem any_operand (hhanded : HandedAll doc table source trees state parts)
    (hparent : state.parentKind?.any declaresMember = false) :
    parts.any (!·.isOperator) = trees.any (·.isOperand) := by
  induction hhanded with
  | nil state => rfl
  | cons hfirst _ ih =>
      rw [List.any_append, List.any_cons, hfirst.operand hparent,
        ih (hfirst.grows.parentKind?_eq ▸ hparent)]

/-- What two lists of trees hand up is divided between them. -/
theorem exists_of_append {left right : List Tree}
    (hhanded : HandedAll doc table source (left ++ right) state parts) :
    ∃ first second, parts = first ++ second ∧ HandedAll doc table source left state first ∧
      HandedAll doc table source right ((useWalk doc table source).runAll left state) second := by
  induction left generalizing state parts with
  | nil =>
      refine ⟨[], parts, rfl, HandedAll.nil state, ?_⟩
      rwa [Walk.runAll]
  | cons tree rest ih =>
      cases hhanded with
      | @cons _ _ _ handed more hfirst hrest =>
          obtain ⟨first, second, rfl, hleft, hright⟩ := ih hrest
          refine ⟨handed ++ first, second, (List.append_assoc _ _ _).symm, hleft.cons hfirst, ?_⟩
          rwa [Walk.runAll]

/-- The first operand is what the first child that is an operand has handed up. -/
theorem exists_split_of_find? (hhanded : HandedAll doc table source trees state parts)
    (hparent : state.parentKind?.any declaresMember = false) {target : Part}
    (htarget : parts.find? (!·.isOperator) = some target) :
    ∃ earlier occurrence later handed, trees = earlier ++ occurrence :: later ∧
      (∀ tree ∈ earlier, tree.isOperand = false) ∧ occurrence.isOperand = true ∧
      HandedBy doc table source occurrence ((useWalk doc table source).runAll earlier state)
        handed ∧ target ∈ handed := by
  induction hhanded with
  | nil state => cases htarget
  | @cons tree rest state handed more hfirst _ ih =>
      have hoperand := hfirst.operand hparent
      rw [List.find?_append] at htarget
      cases hfound : handed.find? (!·.isOperator) with
      | some found =>
          rw [hfound, Option.some_or] at htarget
          cases htarget
          have hvalued := List.find?_some hfound
          refine ⟨[], tree, rest, handed, rfl, fun _ hmem => absurd hmem List.not_mem_nil, ?_, ?_,
            List.mem_of_find?_eq_some hfound⟩
          · rw [← hoperand]
            exact List.any_eq_true.2 ⟨target, List.mem_of_find?_eq_some hfound, hvalued⟩
          · rwa [Walk.runAll]
      | none =>
          rw [hfound, Option.none_or] at htarget
          obtain ⟨earlier, occurrence, later, handed, rfl, hearlier, hoccurrence, hby, hmem⟩ :=
            ih (hfirst.grows.parentKind?_eq ▸ hparent) htarget
          refine ⟨tree :: earlier, occurrence, later, handed, rfl,
            List.forall_mem_cons.2 ⟨?_, hearlier⟩, hoccurrence, ?_, hmem⟩
          · rw [← hoperand]
            exact List.any_eq_false.2 (List.find?_eq_none.1 hfound)
          · rwa [Walk.runAll]

/-- A plain variable behind children that are no operands is the first operand. -/
theorem find?_eq_some {earlier later : List Tree} {occurrence : Tree} {leaf : Token}
    (hhanded : HandedAll doc table source (earlier ++ occurrence :: later) state parts)
    (hparent : state.parentKind?.any declaresMember = false)
    (hearlier : ∀ tree ∈ earlier, tree.isOperand = false)
    (hleaf : occurrence.variableToken? = some leaf) :
    parts.find? (!·.isOperator) =
      some (variablePart doc leaf ((useWalk doc table source).runAll earlier state)) := by
  obtain ⟨first, second, rfl, hfirst, hsecond⟩ := hhanded.exists_of_append
  have hnone : first.find? (!·.isOperator) = none := by
    have hany := hfirst.any_operand hparent
    rw [List.any_eq_false.2 fun tree htree => Bool.eq_false_iff.1 (hearlier tree htree)] at hany
    exact List.find?_eq_none.2 (List.any_eq_false.1 hany)
  rw [List.find?_append, hnone, Option.none_or]
  cases hsecond with
  | cons hoccurrence _ =>
      rw [hoccurrence.plain leaf hleaf]
      rfl

end HandedAll

end Reading

end SymbolIndex
