import SymbolIndex.Proofs.Reading.UseClauses
import SymbolIndex.Reading.Uses

/-!
# What the steps of the walk over uses do

The walk opens a scope where it enters some phrases, and closes it where it leaves
them.  All else that a step does is a series of edits: it emits references, hands parts
to the phrase around, sets types of variables and of references that are there, and
notes what a comment, a namespace or an import says.  Each step is taken apart once,
here, with the edits told by the tree that is read.  So what outlasts the edits outlasts
the steps.
-/

namespace SymbolIndex

/-- Phrases whose range is that of a scope or of a reference. -/
def Tree.givesRange (tree : Tree) : Bool :=
  match tree.phraseKind? with
  | some .namespaceDefinition => (tree.childPhrase? .compoundStatement).isSome
  | some .functionDeclaration | some .methodDeclaration
  | some .anonymousFunctionCreationExpression | some .classDeclaration
  | some .interfaceDeclaration | some .traitDeclaration | some .qualifiedName
  | some .fullyQualifiedName | some .relativeQualifiedName | some .namespaceName
  | some .memberName | some .scopedMemberName | some .identifier | some .namespaceUseClause
  | some .namespaceUseGroupClause | some .relativeScope => true
  | _ => false

namespace Reading

variable {doc : Document} {table : SymbolTable} {source : SymbolSource}

/-! ## Kinds of phrases and symbols -/

/-- Phrases that open a scope: declarations, and namespaces with braces. -/
def opensScope (tree : Tree) : Bool :=
  match tree.phraseKind? with
  | some .namespaceDefinition => (tree.childPhrase? .compoundStatement).isSome
  | some .functionDeclaration | some .methodDeclaration
  | some .anonymousFunctionCreationExpression | some .classDeclaration
  | some .interfaceDeclaration | some .traitDeclaration => true
  | _ => false

/-- Phrases that open, close or swap levels of variables. -/
def movesLevels : PhraseKind → Bool
  | .functionDeclaration | .methodDeclaration | .anonymousFunctionCreationExpression
  | .ifStatement | .switchStatement | .elseIfClause | .elseClause | .caseStatement
  | .defaultStatement => true
  | _ => false

/-- Phrases that give a type to their first operand, if that is a plain variable. -/
def retypes : PhraseKind → Bool
  | .simpleAssignmentExpression | .byRefAssignmentExpression | .foreachValue => true
  | _ => false

/-- Phrases in which an identifier declares a member and is not handed up. -/
def declaresMember : PhraseKind → Bool
  | .methodDeclarationHeader | .classConstElement => true
  | _ => false

theorem isVariable_methodKind (name : String) : (methodKind name).isVariable = false := by
  rw [methodKind]
  split
  · rfl
  · rfl

theorem isVariable_usedKind (state : UseState) : (usedKind state).isVariable = false := by
  rw [usedKind]
  split
  · split
    · rfl
    · rfl
  · rfl
  · rfl

theorem isVariable_of_isImported {kind : SymbolKind} (hkind : isImported kind = true) :
    kind.isVariable = false := by
  cases kind
  case function | constant | classType => rfl
  all_goals cases hkind

/-! ## First operands -/

theorem plainVariable?_eq_some {part : Part} {name : String} :
    part.plainVariable? = some name ↔
      part.phrase = some .simpleVariable ∧ part.variableName = some name := by
  rw [Part.plainVariable?]
  split
  · rename_i hphrase
    rw [hphrase, eq_self_iff_true, true_and]
  · rename_i hphrase
    exact ⟨fun hnone => (nomatch hnone), fun hplain => absurd hplain.1 hphrase⟩

namespace Frame

/-- The target of a phrase, with its name, if it is a plain variable. -/
def target? (frame : Frame) : Option (Part × String) :=
  frame.first?.bind fun part => part.plainVariable?.map (part, ·)

/-- The target is the first operand, if that is a plain variable. -/
theorem target?_eq_some {frame : Frame} {part : Part} {name : String} :
    frame.target? = some (part, name) ↔
      frame.first? = some part ∧ part.phrase = some .simpleVariable ∧
        part.variableName = some name := by
  rw [target?, Option.bind_eq_some_iff]
  constructor
  · rintro ⟨first, hfirst, hplain⟩
    obtain ⟨found, hfound, heq⟩ := Option.map_eq_some_iff.1 hplain
    cases heq
    exact ⟨hfirst, plainVariable?_eq_some.1 hfound⟩
  · rintro ⟨hfirst, hplain⟩
    exact ⟨part, hfirst, Option.map_eq_some_iff.2 ⟨name, plainVariable?_eq_some.2 hplain, rfl⟩⟩

/-- The first operand of the phrase goes by the name. -/
def namesFirst (frame : Frame) (name : String) : Prop :=
  ∃ part, frame.first? = some part ∧ part.variableName = some name

theorem namesFirst_of_target? {frame : Frame} {part : Part} {name : String}
    (htarget : frame.target? = some (part, name)) : frame.namesFirst name := by
  obtain ⟨hfirst, -, hname⟩ := target?_eq_some.1 htarget
  exact ⟨part, hfirst, hname⟩

end Frame

/-! ## Edits -/

/-- What edits may do: the references that they may emit, the parts that they may hand
on, the variables and the places of references that they may give a type, and whether
they may put other levels of variables in place. -/
structure Allowed where
  emits : Reference → Prop := fun _ => False
  hands : Part → Prop := fun _ => False
  names : String → Prop := fun _ => False
  places : Nat → Prop := fun _ => False
  levels : Prop := False

namespace UseState

/-- A series of edits leads from one state to the other, and hands on some parts.
Scopes, frames and declarations are neither opened nor closed. -/
inductive Edits (allowed : Allowed) (before : UseState) : List Part → UseState → Prop
  | refl : Edits allowed before [] before
  | emit {parts : List Part} {state : UseState} {reference : Reference}
      (hedits : Edits allowed before parts state) (hreference : allowed.emits reference) :
      Edits allowed before parts (state.emit reference)
  | pushPart {parts : List Part} {state : UseState} {part : Part}
      (hedits : Edits allowed before parts state) (hpart : allowed.hands part) :
      Edits allowed before (parts ++ [part]) (state.pushPart part)
  | setVariable {parts : List Part} {state : UseState} {name : String}
      (hedits : Edits allowed before parts state) (hname : allowed.names name) (type : String) :
      Edits allowed before parts (state.setVariable name type)
  | patchType {parts : List Part} {state : UseState} {place : Nat}
      (hedits : Edits allowed before parts state) (hplace : allowed.places place)
      (type : String) : Edits allowed before parts (state.patchType (some place) type)
  | setLevels {parts : List Part} {state : UseState} (hedits : Edits allowed before parts state)
      (hlevels : allowed.levels) (varTypes : VariableTable) :
      Edits allowed before parts { state with varTypes := varTypes }
  | setPending {parts : List Part} {state : UseState} (hedits : Edits allowed before parts state)
      (type : Option String) : Edits allowed before parts { state with pendingType := type }
  | setResolver {parts : List Part} {state : UseState} {resolver : NameResolver}
      (hedits : Edits allowed before parts state)
      (hclasses : resolver.classes = state.resolver.classes) :
      Edits allowed before parts { state with resolver := resolver }

namespace Edits

variable {allowed : Allowed} {before state : UseState} {parts : List Part}
  (hedits : before.Edits allowed parts state)
include hedits

/-- References that may be emitted can be emitted one after the other. -/
theorem emitAll {references : List Reference}
    (hreferences : ∀ reference ∈ references, allowed.emits reference) :
    before.Edits allowed parts (state.emitAll references) := by
  rw [UseState.emitAll]
  induction references generalizing state with
  | nil => exact hedits
  | cons reference rest ih =>
      obtain ⟨hfirst, hrest⟩ := List.forall_mem_cons.1 hreferences
      exact ih (hedits.emit hfirst) hrest

theorem inlineTags (hnames : ∀ name, allowed.names name) (tags : List DocTag) :
    before.Edits allowed parts (tags.foldl inlineTag state) := by
  induction tags generalizing state with
  | nil => exact hedits
  | cons tag rest ih =>
      apply ih
      rw [inlineTag]
      split
      · exact hedits.setPending _
      · exact hedits.setVariable (hnames _) _

theorem importUses {imports : List Symbol} (himports : ∀ symbol ∈ imports, ∀ reference,
      importReference? symbol = some reference → allowed.emits reference) :
    before.Edits allowed parts (imports.foldl importUse state) := by
  induction imports generalizing state with
  | nil => exact hedits
  | cons symbol rest ih =>
      obtain ⟨hfirst, hrest⟩ := List.forall_mem_cons.1 himports
      have hemitted := hedits.emitAll fun reference hmem =>
        hfirst reference (Option.mem_toList.1 hmem)
      refine ih (hemitted.setResolver ?_) hrest
      rw [NameResolver.addImport]
      split
      · rfl
      · rfl

end Edits

end UseState

/-! ## Tokens -/

/-- What a token hands up. -/
def tokenParts (doc : Document) (leaf : Token) : List Part :=
  match leaf.kind with
  | .integerLiteral => [.typed "int"]
  | .floatingLiteral => [.typed "float"]
  | .stringLiteral => [.typed "string"]
  | .operatorMark => [{ isOperator := true, text := doc.tokenText leaf }]
  | _ => []

/-- A reference that is emitted at a token. -/
structure EmittedAt (doc : Document) (leaf : Token) (reference : Reference) : Prop where
  location : reference.location = doc.location (doc.tokenRange leaf)
  solid : leaf.kind.isTrivia = false
  named : reference.kind.isVariable = true → leaf.kind = .variableName

/-- What a token may do: of variables it names its own, or any in a comment. -/
def Allowed.atToken (doc : Document) (leaf : Token) : Allowed where
  emits := EmittedAt doc leaf
  hands part := part.phrase = none
  names name := leaf.kind = .documentComment ∨
    leaf.kind = .variableName ∧ doc.tokenText leaf = name

section

variable {leaf : Token} {state : UseState}

theorem emittedAt_of_declarationReference? {reference : Reference}
    (hkind : leaf.kind = .plainName)
    (hreference : declarationReference? doc table leaf state = some reference) :
    EmittedAt doc leaf reference := by
  have hsolid : leaf.kind.isTrivia = false := by
    rw [hkind]
    rfl
  rw [declarationReference?] at hreference
  dsimp only at hreference
  split at hreference
  case h_1 =>
    obtain ⟨function, -, rfl⟩ := Option.map_eq_some_iff.1 hreference
    exact ⟨rfl, hsolid, nofun⟩
  case h_6 => cases hreference
  all_goals
    cases hreference
    exact ⟨rfl, hsolid, nofun⟩

theorem edits_variableToken (hkind : leaf.kind = .variableName) :
    state.Edits (.atToken doc leaf) [] (variableToken doc leaf state) := by
  have hsolid : leaf.kind.isTrivia = false := by
    rw [hkind]
    rfl
  rw [variableToken]
  dsimp only
  split
  · exact .emit .refl ⟨rfl, hsolid, fun _ => hkind⟩
  · exact .emit .refl ⟨rfl, hsolid, fun _ => hkind⟩
  · exact .emit (.setVariable .refl (Or.inr ⟨hkind, rfl⟩) _) ⟨rfl, hsolid, fun _ => hkind⟩
  · exact .emit .refl ⟨rfl, hsolid, fun _ => hkind⟩

end

/-- What a token does is allowed at it. -/
theorem edits_useToken (leaf : Token) (state : UseState) :
    state.Edits (.atToken doc leaf) (tokenParts doc leaf) (useToken doc table leaf state) := by
  obtain ⟨kind, offset, length⟩ := leaf
  cases kind
  case documentComment =>
    change state.Edits _ [] (inlineComment doc _ state)
    rw [inlineComment]
    split
    · exact .refl
    · exact .inlineTags .refl (fun _ => Or.inl rfl) _
  case openBrace | closeBrace | semicolon => exact .setPending .refl none
  case integerLiteral | floatingLiteral | stringLiteral | operatorMark =>
    exact .pushPart .refl rfl
  case plainName =>
    exact .emitAll .refl fun reference hmem =>
      emittedAt_of_declarationReference? rfl (Option.mem_toList.1 hmem)
  case variableName => exact edits_variableToken rfl
  all_goals exact .refl

/-! ## Entering phrases -/

/-- A reference that is emitted where a phrase is entered: at the phrase itself, at a
part that gives it its range, or at the variable of the phrase. -/
inductive EmittedIn (doc : Document) (kind : PhraseKind) (tree : Tree) (reference : Reference) :
    Prop
  | self (hgives : (Tree.phrase kind tree.children).givesRange = true)
      (hkind : reference.kind.isVariable = false)
      (hlocation : reference.location = doc.location (doc.treeRange tree))
  | part (part : Tree) (hpart : part ∈ tree.parts) (hgives : part.givesRange = true)
      (hkind : reference.kind.isVariable = false)
      (hlocation : reference.location = doc.location (doc.treeRange part))
  | leaf (leaf : Token) (hphrase : kind = .simpleVariable)
      (hleaf : tree.childToken? .variableName = some leaf)
      (hlocation : reference.location = doc.location (doc.tokenRange leaf))

/-- The part may name a member, whose reference then has the range of the part. -/
def Part.NamesMember (part : Part) : Prop :=
  part.phrase = some .memberName ∨ part.phrase = some .scopedMemberName

/-- What entering a phrase may do.  A part that is handed on and names a member has the
range of the phrase. -/
def Allowed.entering (doc : Document) (kind : PhraseKind) (tree : Tree) : Allowed where
  emits := EmittedIn doc kind tree
  hands part := part.NamesMember →
    (Tree.phrase kind tree.children).givesRange = true ∧ part.range = doc.treeRange tree
  levels := movesLevels kind = true

section

variable {kind : PhraseKind} {tree : Tree}

theorem exists_edits_simpleVariable (tree : Tree) (state : UseState) :
    ∃ parts, state.Edits (.entering doc .simpleVariable tree) parts
      (simpleVariable doc tree state) := by
  rw [simpleVariable]
  split
  · exact ⟨_, .refl⟩
  · rename_i leaf hleaf
    refine ⟨_, .pushPart (.emit .refl (.leaf leaf rfl hleaf rfl)) ?_⟩
    rintro (hphrase | hphrase)
    all_goals cases hphrase

/-- A name hands up one part, which is no variable. -/
theorem exists_edits_nameUse (hgives : (Tree.phrase kind tree.children).givesRange = true)
    (state : UseState) :
    ∃ part, state.Edits (.entering doc kind tree) [part] (nameUse doc source tree state) ∧
      part.isOperator = false ∧ part.variableName = none ∧
        (part.phrase = none ∨ part.phrase = tree.phraseKind?) := by
  rw [nameUse]
  dsimp only
  split
  · refine ⟨_, .pushPart .refl ?_, rfl, rfl, Or.inl rfl⟩
    rintro (hphrase | hphrase)
    all_goals cases hphrase
  · refine ⟨_, .pushPart (.emit .refl ?_) fun _ => ⟨hgives, rfl⟩, rfl, rfl, Or.inr rfl⟩
    exact .self hgives (isVariable_usedKind state) rfl

/-- An identifier hands itself up, save where it declares a member. -/
theorem exists_edits_identifierUse
    (hgives : (Tree.phrase kind tree.children).givesRange = true) (state : UseState) :
    ∃ parts, state.Edits (.entering doc kind tree) parts (identifierUse doc tree state) ∧
      (∀ part ∈ parts, part.phrase = some .identifier ∧ part.variableName = none) ∧
      (state.parentKind?.any declaresMember = false → parts.any (!·.isOperator) = true) := by
  have hnone : ∀ part ∈ ([] : List Part),
      part.phrase = some .identifier ∧ part.variableName = none := fun _ hmem =>
    absurd hmem List.not_mem_nil
  rw [identifierUse]
  dsimp only
  split
  · rename_i hparent
    refine ⟨[], ?_, hnone, fun hother => ?_⟩
    · split
      · exact .refl
      · exact .emit .refl (.self hgives (isVariable_methodKind _) rfl)
    · rw [hparent] at hother
      cases hother
  · rename_i hparent
    refine ⟨[], .emit .refl (.self hgives rfl rfl), hnone, fun hother => ?_⟩
    rw [hparent] at hother
    cases hother
  · exact ⟨_, .pushPart .refl fun _ => ⟨hgives, rfl⟩, List.forall_mem_singleton.2 ⟨rfl, rfl⟩,
      fun _ => rfl⟩

/-- The reference of an import is one that a use declaration may emit. -/
theorem emittedIn_of_mem_importsOf {symbol : Symbol} {reference : Reference}
    (hmem : symbol ∈ importsOf doc tree) (hreference : importReference? symbol = some reference) :
    EmittedIn doc kind tree reference := by
  obtain ⟨clause, hclause, huse, hread⟩ := exists_readFromClause hmem
  obtain ⟨target, -, hlocated⟩ := Option.bind_eq_some_iff.1 hreference
  obtain ⟨location, hlocation, hemitted⟩ := Option.bind_eq_some_iff.1 hlocated
  cases hemitted
  rw [hread.location] at hlocation
  cases hlocation
  refine .part clause hclause ?_ (isVariable_of_isImported hread.kind) rfl
  cases clause with
  | token leaf => cases huse
  | phrase kind children =>
      cases kind
      case namespaceUseClause | namespaceUseGroupClause => rfl
      all_goals cases huse

theorem edits_importUses (tree : Tree) (state : UseState) :
    state.Edits (.entering doc .namespaceUseDeclaration tree) []
      ((importsOf doc tree).foldl importUse state) :=
  .importUses .refl fun _ hmem _ hreference => emittedIn_of_mem_importsOf hmem hreference

/-- A name of the namespace is mentioned where its scope, if it has one, is open. -/
theorem edits_namespaceUse (tree : Tree) (state : UseState) :
    (if (tree.childPhrase? .compoundStatement).isSome then
      state.openScope (doc.location (doc.treeRange tree)) else state).Edits
      (.entering doc .namespaceDefinition tree) [] (namespaceUse doc tree state) := by
  have hentered : ∀ {opened : UseState} {name : String},
      opened.Edits (.entering doc .namespaceDefinition tree) []
        { opened with resolver := opened.resolver.enterNamespace name } :=
    .setResolver .refl rfl
  rw [namespaceUse]
  cases hname : tree.childPhrase? .namespaceName with
  | none =>
    split
    · exact hentered
    · exact hentered
  | some nameTree =>
    obtain ⟨hchild, hkind⟩ := Tree.mem_children_of_childPhrase? hname
    have hgives : nameTree.givesRange = true := by rw [Tree.givesRange, hkind]
    have hpart := Tree.mem_parts_of_mem_children hchild
    split
    · exact .emit hentered (.part nameTree hpart hgives rfl rfl)
    · exact .emit hentered (.part nameTree hpart hgives rfl rfl)

/-- Entering a phrase that opens no scope is a series of edits. -/
theorem exists_edits_enterPlain (hplain : opensScope (.phrase kind tree.children) = false)
    (state : UseState) :
    ∃ parts, state.Edits (.entering doc kind tree) parts
      (enterPlain doc table source kind tree state) := by
  have hnamed := @exists_edits_nameUse doc source kind tree
  have hidentified := @exists_edits_identifierUse doc kind tree
  cases kind
  case qualifiedName | fullyQualifiedName | relativeQualifiedName =>
    obtain ⟨part, hedits, -⟩ := hnamed rfl state
    exact ⟨_, hedits⟩
  case simpleVariable => exact exists_edits_simpleVariable tree state
  case identifier =>
    obtain ⟨parts, hedits, -⟩ := hidentified rfl state
    exact ⟨_, hedits⟩
  case scopedMemberName | memberName => exact ⟨_, .pushPart .refl fun _ => ⟨rfl, rfl⟩⟩
  case namespaceUseDeclaration => exact ⟨_, edits_importUses tree state⟩
  case namespaceDefinition =>
    have hunbraced : ¬ (tree.childPhrase? .compoundStatement).isSome = true :=
      Bool.eq_false_iff.1 hplain
    have hedits := @edits_namespaceUse doc tree state
    rw [if_neg hunbraced] at hedits
    exact ⟨_, hedits⟩
  case ifStatement | switchStatement | elseIfClause | elseClause | caseStatement |
      defaultStatement => exact ⟨_, .setLevels .refl rfl _⟩
  case functionDeclaration | methodDeclaration | anonymousFunctionCreationExpression |
      classDeclaration | interfaceDeclaration | traitDeclaration => cases hplain
  all_goals exact ⟨_, .refl⟩

/-- The state has just opened a scope for a tree. -/
structure Opened (doc : Document) (tree : Tree) (state opened : UseState) : Prop where
  scope : opened.scope = ⟨doc.location (doc.treeRange tree), []⟩
  outer : opened.outer = state.scope :: state.outer
  frames : opened.frames = state.frames

/-- A phrase that opens a scope opens it where it is entered. -/
theorem exists_opened (hopens : opensScope (.phrase kind tree.children) = true)
    (state : UseState) :
    ∃ opened, Opened doc tree state opened ∧ opened.Edits (.entering doc kind tree) []
      (enterPlain doc table source kind tree state) := by
  cases kind
  case namespaceDefinition =>
    have hbraced : (tree.childPhrase? .compoundStatement).isSome = true := hopens
    have hedits := @edits_namespaceUse doc tree state
    rw [if_pos hbraced] at hedits
    exact ⟨state.openScope (doc.location (doc.treeRange tree)), ⟨rfl, rfl, rfl⟩, hedits⟩
  case functionDeclaration | methodDeclaration | anonymousFunctionCreationExpression |
      classDeclaration | interfaceDeclaration | traitDeclaration =>
    exact ⟨enterPlain doc table source _ tree state, ⟨rfl, rfl, rfl⟩, .refl⟩
  all_goals cases hopens

end

/-! ## Leaving phrases -/

/-- A reference that is emitted where a phrase is left: at the phrase itself, or at the
name of a member that it has been handed. -/
inductive EmittedFor (doc : Document) (tree : Tree) (frame : Frame) (reference : Reference) :
    Prop
  | self (hgives : (Tree.phrase frame.kind tree.children).givesRange = true)
      (hkind : reference.kind.isVariable = false)
      (hlocation : reference.location = doc.location (doc.treeRange tree))
  | member (part : Part) (hpart : part ∈ frame.parts) (hmember : part.NamesMember)
      (hkind : reference.kind.isVariable = false)
      (hlocation : reference.location = doc.location part.range)

/-- What leaving a phrase may do: it gives types to the variable that its first operand
names, and to the mention of its target. -/
def Allowed.leaving (doc : Document) (tree : Tree) (frame : Frame) : Allowed where
  emits := EmittedFor doc tree frame
  names := frame.namesFirst
  places place := retypes frame.kind = true ∧
    ∃ part name, frame.target? = some (part, name) ∧ part.reference = some place
  levels := movesLevels frame.kind = true

section

variable {tree : Tree} {frame : Frame} {state : UseState}

/-- The name of a member is a part that names one. -/
theorem member_of_find? {part : Part} {kind : PhraseKind}
    (hkind : kind = .memberName ∨ kind = .scopedMemberName)
    (hpart : frame.find? kind = some part) : part ∈ frame.parts ∧ part.NamesMember := by
  have hfound := List.find?_some hpart
  have hphrase := beq_iff_eq.1 hfound
  refine ⟨List.mem_of_find?_eq_some hpart, ?_⟩
  rw [Part.NamesMember, hphrase]
  exact hkind.imp (congrArg some) (congrArg some)

theorem edits_memberAccess (isCall : Bool) :
    state.Edits (.leaving doc tree frame) [] (memberAccess doc source isCall frame state).1 := by
  rw [memberAccess]
  split
  · exact .refl
  · rename_i part hfound
    obtain ⟨hpart, hmember⟩ := member_of_find? (Or.inl rfl) hfound
    refine .emit .refl (.member part hpart hmember ?_ rfl)
    cases isCall with
    | false => rfl
    | true => exact isVariable_methodKind _

theorem edits_scopedAccess {kind : SymbolKind} (hkind : kind.isVariable = false) :
    state.Edits (.leaving doc tree frame) [] (scopedAccess doc source kind frame state).1 := by
  rw [scopedAccess]
  split
  · exact .refl
  · rename_i part hfound
    obtain ⟨hpart, hmember⟩ := member_of_find? (Or.inr rfl) hfound
    split
    · exact .refl
    · refine .emit .refl (.member part hpart hmember ?_ rfl)
      dsimp only
      split
      · exact isVariable_methodKind _
      · exact hkind

/-- The variable and the mention of a target get the same type. -/
theorem edits_retype {before : UseState} (hedits : before.Edits (.leaving doc tree frame) [] state)
    (hretypes : retypes frame.kind = true) {part : Part} {name : String}
    (htarget : frame.target? = some (part, name)) (type : String) :
    before.Edits (.leaving doc tree frame) []
      ((state.setVariable name type).patchType part.reference type) := by
  have hnamed := hedits.setVariable (Frame.namesFirst_of_target? htarget) type
  cases hplace : part.reference with
  | none => exact hnamed
  | some place => exact hnamed.patchType ⟨hretypes, part, name, htarget, hplace⟩ type

theorem edits_assign (hretypes : retypes frame.kind = true) :
    state.Edits (.leaving doc tree frame) [] (assign frame state).1 := by
  rw [assign]
  split
  · exact .refl
  · rename_i part rest hoperands
    have hfirst : frame.first? = some part := congrArg List.head? hoperands
    dsimp only
    split
    · rename_i hphrase hname
      exact edits_retype (.setPending .refl none) hretypes
        (Frame.target?_eq_some.2 ⟨hfirst, hphrase, hname⟩) _
    · rename_i hname
      have hnamed : (Allowed.leaving doc tree frame).names _ := ⟨part, hfirst, hname⟩
      exact .setVariable .refl hnamed _
    · exact .refl

theorem edits_loopValue (hretypes : retypes frame.kind = true) :
    state.Edits (.leaving doc tree frame) [] (loopValue frame state) := by
  rw [loopValue]
  split
  · exact .refl
  · rename_i part hfirst
    split
    · rename_i name hplain
      obtain ⟨hphrase, hname⟩ := plainVariable?_eq_some.1 hplain
      exact edits_retype .refl hretypes (Frame.target?_eq_some.2 ⟨hfirst, hphrase, hname⟩) _
    · exact .refl

theorem edits_instanceTest :
    state.Edits (.leaving doc tree frame) [] (instanceTest frame state) := by
  rw [instanceTest]
  split
  · rename_i name hname
    obtain ⟨part, hfirst, hplain⟩ := Option.bind_eq_some_iff.1 hname
    have hnamed : (Allowed.leaving doc tree frame).names name :=
      ⟨part, hfirst, (plainVariable?_eq_some.1 hplain).2⟩
    split
    · exact .setVariable .refl hnamed _
    · exact .refl
  · exact .refl

/-- Leaving a phrase that has opened no scope is a series of edits. -/
theorem edits_valueOf (hplain : opensScope (.phrase frame.kind tree.children) = false) :
    state.Edits (.leaving doc tree frame) [] (valueOf doc source tree frame state).1 := by
  obtain ⟨kind, parts⟩ := frame
  cases kind
  case simpleAssignmentExpression | byRefAssignmentExpression => exact edits_assign rfl
  case foreachValue => exact edits_loopValue rfl
  case instanceOfExpression => exact edits_instanceTest
  case relativeScope => exact .emit .refl (.self rfl rfl rfl)
  case methodCallExpression | propertyAccessExpression => exact edits_memberAccess _
  case scopedCallExpression | scopedPropertyAccessExpression | classConstantAccessExpression =>
    exact edits_scopedAccess rfl
  case ifStatement | switchStatement => exact .setLevels .refl rfl _
  case namespaceDefinition =>
    have hunbraced : ¬ (tree.childPhrase? .compoundStatement).isSome = true :=
      Bool.eq_false_iff.1 hplain
    rw [valueOf]
    dsimp only
    rw [if_neg hunbraced]
    exact .refl
  case functionDeclaration | methodDeclaration | anonymousFunctionCreationExpression |
      classDeclaration | interfaceDeclaration | traitDeclaration => cases hplain
  all_goals exact .refl

/-- A phrase that opens a scope closes it where it is left, and nothing else. -/
theorem closes_valueOf (hopens : opensScope (.phrase frame.kind tree.children) = true) :
    let after := (valueOf doc source tree frame state).1
    after.scope = state.closeScope.scope ∧ after.outer = state.closeScope.outer ∧
      after.frames = state.closeScope.frames := by
  obtain ⟨kind, parts⟩ := frame
  cases kind
  case namespaceDefinition =>
    have hbraced : (tree.childPhrase? .compoundStatement).isSome = true := hopens
    rw [valueOf]
    dsimp only
    rw [if_pos hbraced]
    exact ⟨rfl, rfl, rfl⟩
  case functionDeclaration | methodDeclaration | anonymousFunctionCreationExpression |
      classDeclaration | interfaceDeclaration | traitDeclaration => exact ⟨rfl, rfl, rfl⟩
  all_goals cases hopens

end

end Reading

end SymbolIndex
