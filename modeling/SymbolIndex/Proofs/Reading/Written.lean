import SymbolIndex.Proofs.Reading.Walk
import SymbolIndex.Reading.Uses

/-!
# What is written in references

The symbols of other documents give references their types, and through these the scopes in which
members are looked up.  All else is read from the document and its own symbols: which scopes there
are, and the kinds, names and places of the references in them.  Two walks that differ only in what
they know of other documents go in lockstep, with states that differ in types only.
-/

namespace SymbolIndex

/-- A reference without what is inferred for it. -/
def Reference.written (reference : Reference) : Reference :=
  { reference with scope := "", type := "" }

namespace Scope

mutual

/-- A scope with all references as they are written. -/
def written : Scope → Scope
  | ⟨location, children⟩ => ⟨location, writtenIn children⟩

def writtenIn : List ScopeChild → List ScopeChild
  | [] => []
  | .reference reference :: rest => .reference reference.written :: writtenIn rest
  | .scope inner :: rest => .scope inner.written :: writtenIn rest

end

theorem written_eq (scope : Scope) :
    scope.written = ⟨scope.location, writtenIn scope.children⟩ := by
  cases scope
  rfl

theorem writtenIn_append (left right : List ScopeChild) :
    writtenIn (left ++ right) = writtenIn left ++ writtenIn right := by
  induction left with
  | nil => rfl
  | cons child rest ih => cases child <;> simp [writtenIn, ih]

theorem length_writtenIn (children : List ScopeChild) :
    (writtenIn children).length = children.length := by
  induction children with
  | nil => rfl
  | cons child rest ih => cases child <;> simp [writtenIn, ih]

/-- A reference with another type is written alike. -/
theorem writtenIn_modify (children : List ScopeChild) (place : Nat) (type : String) :
    writtenIn (children.modify place (Reading.UseState.withType type)) = writtenIn children := by
  induction children generalizing place with
  | nil => rw [List.modify_nil]
  | cons child rest ih =>
    cases place with
    | zero => cases child <;> rfl
    | succ place =>
      rw [List.modify_succ_cons]
      cases child <;> simp [writtenIn, ih]

end Scope

def ReferenceTable.written (table : ReferenceTable) : ReferenceTable :=
  { table with root := table.root.written }

namespace Reading

/-- Stacks that are the same after a map are both empty, or have tops and rests that are. -/
theorem map_eq_map_cases {α β : Type} {f : α → β} {left right : List α}
    (hsame : left.map f = right.map f) :
    (left = [] ∧ right = []) ∨
      ∃ top rest top' rest', left = top :: rest ∧ right = top' :: rest' ∧ f top = f top' ∧
        rest.map f = rest'.map f := by
  cases left with
  | nil => exact Or.inl ⟨rfl, List.map_eq_nil_iff.1 hsame.symm⟩
  | cons top rest =>
    obtain ⟨top', rest', hright, htop, hrest⟩ := List.map_eq_cons_iff.1 hsame.symm
    exact Or.inr ⟨top, rest, top', rest', rfl, hright, htop.symm, hrest.symm⟩

/-! ## Parts and frames without types -/

namespace Part

def written (part : Part) : Part :=
  { part with type := "" }

end Part

namespace Frame

def written (frame : Frame) : Frame :=
  { frame with parts := frame.parts.map Part.written }

theorem find?_written (frame : Frame) (kind : PhraseKind) :
    frame.written.find? kind = (frame.find? kind).map Part.written :=
  List.find?_map

theorem first?_written (frame : Frame) :
    frame.written.first? = frame.first?.map Part.written := by
  rw [first?, first?, operands, operands, written, List.filter_map, List.head?_map]
  rfl

/-- Frames that differ in types have the same part of a kind, up to its type. -/
theorem find?_cases {left right : Frame} (hsame : left.written = right.written)
    (kind : PhraseKind) :
    (left.find? kind = none ∧ right.find? kind = none) ∨
      ∃ part other, left.find? kind = some part ∧ right.find? kind = some other ∧
        part.text = other.text ∧ part.range = other.range := by
  have hfound : (left.find? kind).map Part.written = (right.find? kind).map Part.written := by
    rw [← find?_written, hsame, find?_written]
  cases hleft : left.find? kind with
  | none =>
    rw [hleft] at hfound
    exact Or.inl ⟨rfl, Option.map_eq_none_iff.1 hfound.symm⟩
  | some part =>
    rw [hleft] at hfound
    obtain ⟨other, hright, hother⟩ := Option.map_eq_some_iff.1 hfound.symm
    obtain ⟨-, -, -, htext, hrange, -⟩ := Part.mk.inj hother
    exact Or.inr ⟨part, other, rfl, hright, htext.symm, hrange.symm⟩

end Frame

/-! ### What expressions become -/

theorem written_assign (frame : Frame) (state : UseState) :
    (assign frame state).2.written = {} := by
  rw [assign]
  split
  · rfl
  · dsimp only
    split <;> rfl

theorem written_memberAccess (doc : Document) (source : SymbolSource) (isCall : Bool)
    (frame : Frame) (state : UseState) :
    (memberAccess doc source isCall frame state).2.written = {} := by
  rw [memberAccess]
  split <;> rfl

theorem written_scopedAccess (doc : Document) (source : SymbolSource) (kind : SymbolKind)
    (frame : Frame) (state : UseState) :
    (scopedAccess doc source kind frame state).2.written = {} := by
  rw [scopedAccess]
  split
  · rfl
  · split <;> rfl

theorem written_subscriptPart {left right : Frame} (hsame : left.written = right.written) :
    (subscriptPart left).written = (subscriptPart right).written := by
  have hfirst : left.first?.bind Part.plainVariable? = right.first?.bind Part.plainVariable? := by
    have hmapped : left.first?.map Part.written = right.first?.map Part.written := by
      rw [← Frame.first?_written, hsame, Frame.first?_written]
    have hbind := congrArg (Option.bind · Part.plainVariable?) hmapped
    rwa [Option.bind_map, Option.bind_map] at hbind
  simp only [subscriptPart, Part.written, hfirst]

/-! ## States that differ in types -/

/-- The states agree, save for the types of variables, of references and of parts. -/
structure SameWritten (left right : UseState) : Prop where
  resolver : left.resolver = right.resolver
  contexts : left.contexts = right.contexts
  scope : left.scope.written = right.scope.written
  outer : left.outer.map Scope.written = right.outer.map Scope.written
  frames : left.frames.map Frame.written = right.frames.map Frame.written

namespace SameWritten

variable {left right : UseState}

theorem refl (state : UseState) : SameWritten state state :=
  ⟨rfl, rfl, rfl, rfl, rfl⟩

theorem symm (hsame : SameWritten left right) : SameWritten right left :=
  ⟨hsame.resolver.symm, hsame.contexts.symm, hsame.scope.symm, hsame.outer.symm,
    hsame.frames.symm⟩

theorem trans {other : UseState} (hleft : SameWritten left right)
    (hright : SameWritten right other) : SameWritten left other :=
  ⟨hleft.resolver.trans hright.resolver, hleft.contexts.trans hright.contexts,
    hleft.scope.trans hright.scope, hleft.outer.trans hright.outer,
    hleft.frames.trans hright.frames⟩

/-- Steps that change types only may be different on both sides. -/
theorem congr (hsame : SameWritten left right) {left' right' : UseState}
    (hleft : SameWritten left' left) (hright : SameWritten right' right) :
    SameWritten left' right' :=
  hleft.trans (hsame.trans hright.symm)

/-! ### Reading -/

section

variable (hsame : SameWritten left right)
include hsame

theorem writtenIn_children :
    Scope.writtenIn left.scope.children = Scope.writtenIn right.scope.children := by
  have hscope := congrArg Scope.children hsame.scope
  rwa [Scope.written_eq, Scope.written_eq] at hscope

theorem location : left.scope.location = right.scope.location := by
  have hscope := congrArg Scope.location hsame.scope
  rwa [Scope.written_eq, Scope.written_eq] at hscope

theorem nextPlace : left.nextPlace = right.nextPlace := by
  rw [UseState.nextPlace, ← Scope.length_writtenIn, hsame.writtenIn_children,
    Scope.length_writtenIn]
  rfl

theorem head?_frames :
    left.frames.head?.map Frame.written = right.frames.head?.map Frame.written := by
  rw [← List.head?_map, ← List.head?_map, hsame.frames]

theorem parentKind? : left.parentKind? = right.parentKind? := by
  have hkind := congrArg (Option.map Frame.kind) hsame.head?_frames
  rwa [Option.map_map, Option.map_map] at hkind

theorem className : left.className = right.className := by
  rw [UseState.className, hsame.resolver]
  rfl

theorem functionAround? : left.functionAround? = right.functionAround? := by
  rw [UseState.functionAround?, hsame.contexts]
  rfl

theorem usedKind : usedKind left = usedKind right := by
  have hfirst : left.frames.head?.any (·.parts.isEmpty) =
      right.frames.head?.any (·.parts.isEmpty) := by
    have hany := congrArg (fun frame : Option Frame => frame.any (·.parts.isEmpty))
      hsame.head?_frames
    simpa [Option.any_map, Frame.written, Function.comp_def] using hany
  rw [Reading.usedKind, Reading.usedKind, hsame.parentKind?, hfirst]

theorem builtInType? (kind : SymbolKind) (text : String) :
    builtInType? left kind text = builtInType? right kind text := by
  rw [Reading.builtInType?, Reading.builtInType?, hsame.parentKind?]

/-! ### Writing -/

/-- Parts that are written alike may be handed on. -/
theorem pushPart {part other : Part} (hpart : part.written = other.written) :
    SameWritten (left.pushPart part) (right.pushPart other) := by
  rw [UseState.pushPart, UseState.pushPart]
  rcases map_eq_map_cases hsame.frames with
    ⟨hleft, hright⟩ | ⟨frame, rest, frame', rest', hleft, hright, hframe, hrest⟩
  · rw [hleft, hright]
    exact hsame
  · obtain ⟨hkind, hparts⟩ := Frame.mk.inj hframe
    rw [hleft, hright]
    refine ⟨hsame.resolver, hsame.contexts, hsame.scope, hsame.outer, ?_⟩
    simp only [List.map_cons, Frame.written, List.map_append, List.map_nil, hkind, hparts,
      hpart, hrest]

theorem emit {reference other : Reference} (hreference : reference.written = other.written) :
    SameWritten (left.emit reference) (right.emit other) := by
  refine ⟨hsame.resolver, hsame.contexts, ?_, hsame.outer, hsame.frames⟩
  simp only [UseState.emit, Scope.written_eq, Scope.writtenIn_append, Scope.writtenIn,
    hsame.location, hsame.writtenIn_children, hreference]

theorem emitAll {references others : List Reference}
    (hreferences : references.map Reference.written = others.map Reference.written) :
    SameWritten (left.emitAll references) (right.emitAll others) := by
  rw [UseState.emitAll, UseState.emitAll]
  induction references generalizing left right others with
  | nil =>
    rw [List.map_eq_nil_iff.1 hreferences.symm]
    exact hsame
  | cons reference rest ih =>
    cases others with
    | nil => cases hreferences
    | cons other others =>
      rw [List.map_cons, List.map_cons, List.cons.injEq] at hreferences
      exact ih (hsame.emit hreferences.1) hreferences.2

theorem openScope (location : Location) :
    SameWritten (left.openScope location) (right.openScope location) :=
  ⟨hsame.resolver, hsame.contexts, rfl,
    by simp only [UseState.openScope, List.map_cons, hsame.scope, hsame.outer], hsame.frames⟩

theorem closeScope : SameWritten left.closeScope right.closeScope := by
  rw [UseState.closeScope, UseState.closeScope]
  rcases map_eq_map_cases hsame.outer with
    ⟨hleft, hright⟩ | ⟨around, rest, around', rest', hleft, hright, haround, hrest⟩
  · rw [hleft, hright]
    exact hsame
  · rw [Scope.written_eq, Scope.written_eq, Scope.mk.injEq] at haround
    obtain ⟨hlocation, hchildren⟩ := haround
    rw [hleft, hright]
    refine ⟨hsame.resolver, hsame.contexts, ?_, hrest, hsame.frames⟩
    simp only [Scope.written_eq, Scope.writtenIn_append, Scope.writtenIn, hlocation, hchildren]
    rw [← Scope.written_eq, ← Scope.written_eq, hsame.scope]

end

/-! ## Steps -/

/-! ### Types only -/

/-- A comment within code gives types only. -/
theorem inlineComment (doc : Document) (leaf : Token) (state : UseState) :
    SameWritten (inlineComment doc leaf state) state := by
  have htags : ∀ (tags : List DocTag) (state : UseState),
      SameWritten (tags.foldl inlineTag state) state := by
    intro tags
    induction tags with
    | nil => exact fun state => refl state
    | cons tag rest ih =>
      intro state
      apply (ih _).trans
      rw [inlineTag]
      split <;> exact ⟨rfl, rfl, rfl, rfl, rfl⟩
  rw [Reading.inlineComment]
  split
  · exact refl state
  · exact htags _ state

theorem patchType (state : UseState) (place : Option Nat) (type : String) :
    SameWritten (state.patchType place type) state := by
  cases place with
  | none => exact refl state
  | some place =>
    refine ⟨rfl, rfl, ?_, rfl, rfl⟩
    simp only [UseState.patchType, Scope.written_eq, Scope.writtenIn_modify]

theorem assign (frame : Frame) (state : UseState) :
    SameWritten (assign frame state).1 state := by
  rw [Reading.assign]
  split
  · exact refl state
  · dsimp only
    split
    · exact (patchType _ _ _).trans ⟨rfl, rfl, rfl, rfl, rfl⟩
    · exact ⟨rfl, rfl, rfl, rfl, rfl⟩
    · exact refl state

theorem instanceTest (frame : Frame) (state : UseState) :
    SameWritten (instanceTest frame state) state := by
  rw [Reading.instanceTest]
  split
  · split
    · exact ⟨rfl, rfl, rfl, rfl, rfl⟩
    · exact refl state
  · exact refl state

theorem loopValue (frame : Frame) (state : UseState) :
    SameWritten (loopValue frame state) state := by
  rw [Reading.loopValue]
  split
  · exact refl state
  · split
    · exact (patchType _ _ _).trans ⟨rfl, rfl, rfl, rfl, rfl⟩
    · exact refl state

/-! ### References -/

section

variable (hsame : SameWritten left right) (doc : Document)
include hsame

/-- The reference at the name of a declaration is the same. -/
theorem declarationReference? (table : SymbolTable) (leaf : Token) :
    SameWritten (left.emitAll (declarationReference? doc table leaf left).toList)
      (right.emitAll (declarationReference? doc table leaf right).toList) := by
  apply hsame.emitAll
  rw [Reading.declarationReference?, Reading.declarationReference?, hsame.parentKind?,
    hsame.functionAround?, hsame.className, hsame.resolver]

theorem variableToken (leaf : Token) :
    SameWritten (variableToken doc leaf left) (variableToken doc leaf right) := by
  rw [Reading.variableToken, Reading.variableToken, hsame.parentKind?]
  dsimp only
  split
  · exact hsame.emit rfl
  · exact hsame.emit rfl
  · apply emit
    · exact hsame.congr ⟨rfl, rfl, rfl, rfl, rfl⟩ ⟨rfl, rfl, rfl, rfl, rfl⟩
    · rfl
  · exact hsame.emit rfl

theorem simpleVariable (tree : Tree) :
    SameWritten (simpleVariable doc tree left) (simpleVariable doc tree right) := by
  rw [Reading.simpleVariable, Reading.simpleVariable]
  split
  · exact hsame
  · dsimp only
    rw [hsame.nextPlace]
    apply pushPart
    · apply hsame.emit
      rfl
    · rfl

/-- A name is used alike, whatever types the sources give it. -/
theorem nameUse (source other : SymbolSource) (tree : Tree) :
    SameWritten (nameUse doc source tree left) (nameUse doc other tree right) := by
  rw [Reading.nameUse, Reading.nameUse]
  dsimp only
  rw [hsame.usedKind, hsame.builtInType?]
  split
  · exact hsame.pushPart rfl
  · rw [hsame.resolver, hsame.nextPlace]
    apply pushPart
    · apply hsame.emit
      rfl
    · rfl

theorem identifierUse (tree : Tree) :
    SameWritten (identifierUse doc tree left) (identifierUse doc tree right) := by
  rw [Reading.identifierUse, Reading.identifierUse]
  dsimp only
  rw [hsame.parentKind?, hsame.functionAround?]
  split
  · split
    · exact hsame
    · exact hsame.emit rfl
  · exact hsame.emit rfl
  · exact hsame.pushPart rfl

theorem namespaceUse (tree : Tree) :
    SameWritten (namespaceUse doc tree left) (namespaceUse doc tree right) := by
  have hinside : ∀ name, SameWritten
      { left with resolver := left.resolver.enterNamespace name }
      { right with resolver := right.resolver.enterNamespace name } :=
    fun name => ⟨congrArg (·.enterNamespace name) hsame.resolver, hsame.contexts, hsame.scope,
      hsame.outer, hsame.frames⟩
  rw [Reading.namespaceUse, Reading.namespaceUse]
  split
  · split
    · exact (hinside _).openScope _
    · exact hinside _
  · split
    · exact ((hinside _).openScope _).emit rfl
    · exact (hinside _).emit rfl

theorem importUses (imports : List Symbol) :
    SameWritten (imports.foldl importUse left) (imports.foldl importUse right) := by
  induction imports generalizing left right with
  | nil => exact hsame
  | cons symbol rest ih =>
    have hemitted : SameWritten (left.emitAll (importReference? symbol).toList)
        (right.emitAll (importReference? symbol).toList) := hsame.emitAll rfl
    exact ih ⟨congrArg (·.addImport symbol) hemitted.resolver, hemitted.contexts, hemitted.scope,
      hemitted.outer, hemitted.frames⟩

/-! ### Declarations -/

theorem enterClass (table : SymbolTable) (tree : Tree) :
    SameWritten (enterClass doc table tree left) (enterClass doc table tree right) := by
  apply openScope
  exact ⟨congrArg (·.enterClass (classFrom doc table tree)) hsame.resolver,
    congrArg (classFrom doc table tree :: ·) hsame.contexts, hsame.scope, hsame.outer,
    hsame.frames⟩

theorem leaveClass : SameWritten (leaveClass left) (leaveClass right) := by
  have hclosed := hsame.closeScope
  exact ⟨congrArg (·.leaveClass) hsame.resolver, congrArg List.tail hsame.contexts, hclosed.scope,
    hclosed.outer, hclosed.frames⟩

theorem enterFunction (table : SymbolTable) (tree : Tree) :
    SameWritten (enterFunction doc table tree left) (enterFunction doc table tree right) := by
  apply openScope
  exact ⟨hsame.resolver, congrArg (functionFrom doc table tree :: ·) hsame.contexts, hsame.scope,
    hsame.outer, hsame.frames⟩

theorem leaveFunction : SameWritten (leaveFunction left) (leaveFunction right) := by
  have hclosed := hsame.closeScope
  exact ⟨hclosed.resolver, congrArg List.tail hsame.contexts, hclosed.scope, hclosed.outer,
    hclosed.frames⟩

theorem leaveNamespace : SameWritten
    { left.closeScope with resolver := left.resolver.enterNamespace "" }
    { right.closeScope with resolver := right.resolver.enterNamespace "" } := by
  have hclosed := hsame.closeScope
  exact ⟨congrArg (·.enterNamespace "") hsame.resolver, hclosed.contexts, hclosed.scope,
    hclosed.outer, hclosed.frames⟩

/-! ### Members -/

theorem relativeScope (tree : Tree) :
    SameWritten (relativeScope doc tree left).1 (relativeScope doc tree right).1 := by
  rw [Reading.relativeScope, Reading.relativeScope, hsame.className]
  exact hsame.emit rfl

/-- A member is referred to alike, whatever types the sources give it. -/
theorem emitMember (source other : SymbolSource) {reference reference' : Reference}
    (hreference : reference.written = reference'.written) :
    SameWritten (emitMember source reference left).1 (emitMember other reference' right).1 :=
  hsame.emit hreference

/-- The name of a member, and so its reference, does not depend on types. -/
theorem memberAccess {frame frame' : Frame} (hframe : frame.written = frame'.written)
    (source other : SymbolSource) (isCall : Bool) :
    SameWritten (memberAccess doc source isCall frame left).1
      (memberAccess doc other isCall frame' right).1 := by
  rw [Reading.memberAccess, Reading.memberAccess]
  rcases Frame.find?_cases hframe .memberName with
    ⟨hleft, hright⟩ | ⟨member, member', hleft, hright, htext, hrange⟩
  · rw [hleft, hright]
    exact hsame
  · rw [hleft, hright]
    dsimp only
    rw [htext, hrange]
    apply hsame.emitMember
    rfl

theorem scopedAccess {frame frame' : Frame} (hframe : frame.written = frame'.written)
    (source other : SymbolSource) (kind : SymbolKind) :
    SameWritten (scopedAccess doc source kind frame left).1
      (scopedAccess doc other kind frame' right).1 := by
  rw [Reading.scopedAccess, Reading.scopedAccess]
  rcases Frame.find?_cases hframe .scopedMemberName with
    ⟨hleft, hright⟩ | ⟨member, member', hleft, hright, htext, hrange⟩
  · rw [hleft, hright]
    exact hsame
  · rw [hleft, hright]
    dsimp only
    rw [htext, hrange]
    split
    · exact hsame
    · apply hsame.emitMember
      rfl

/-! ### Whole steps -/

/-- Tokens do not look at types. -/
theorem token (table : SymbolTable) (leaf : Token) :
    SameWritten (useToken doc table leaf left) (useToken doc table leaf right) := by
  unfold useToken
  split
  · exact hsame.congr (inlineComment doc leaf left) (inlineComment doc leaf right)
  · exact hsame.congr ⟨rfl, rfl, rfl, rfl, rfl⟩ ⟨rfl, rfl, rfl, rfl, rfl⟩
  · exact hsame.congr ⟨rfl, rfl, rfl, rfl, rfl⟩ ⟨rfl, rfl, rfl, rfl, rfl⟩
  · exact hsame.congr ⟨rfl, rfl, rfl, rfl, rfl⟩ ⟨rfl, rfl, rfl, rfl, rfl⟩
  · exact hsame.pushPart rfl
  · exact hsame.pushPart rfl
  · exact hsame.pushPart rfl
  · exact hsame.pushPart rfl
  · exact hsame.declarationReference? doc table leaf
  · exact hsame.variableToken doc leaf
  · exact hsame

theorem enterPlain (table : SymbolTable) (source other : SymbolSource) (kind : PhraseKind)
    (tree : Tree) :
    SameWritten (enterPlain doc table source kind tree left)
      (enterPlain doc table other kind tree right) := by
  cases kind
  case qualifiedName | fullyQualifiedName | relativeQualifiedName =>
    exact hsame.nameUse doc source other tree
  case simpleVariable => exact hsame.simpleVariable doc tree
  case identifier => exact hsame.identifierUse doc tree
  case scopedMemberName | memberName => exact hsame.pushPart rfl
  case namespaceUseDeclaration => exact hsame.importUses (importsOf doc tree)
  case namespaceDefinition => exact hsame.namespaceUse doc tree
  case classDeclaration | interfaceDeclaration | traitDeclaration =>
    exact hsame.enterClass doc table tree
  case functionDeclaration | methodDeclaration | anonymousFunctionCreationExpression =>
    exact hsame.enterFunction doc table tree
  -- The others open and close branches, which hold types only, or do nothing.
  all_goals exact hsame.congr ⟨rfl, rfl, rfl, rfl, rfl⟩ ⟨rfl, rfl, rfl, rfl, rfl⟩

/-- Entering a phrase does not look at types. -/
theorem enter (table : SymbolTable) (source other : SymbolSource) (kind : PhraseKind)
    (tree : Tree) :
    SameWritten (enterUse doc table source kind tree left)
      (enterUse doc table other kind tree right) := by
  have hentered := hsame.enterPlain doc table source other kind tree
  rw [enterUse, enterUse]
  split
  · exact ⟨hentered.resolver, hentered.contexts, hentered.scope, hentered.outer,
      congrArg (_ :: ·) hentered.frames⟩
  · exact hentered

theorem valueOf {frame frame' : Frame} (hframe : frame.written = frame'.written)
    (source other : SymbolSource) (tree : Tree) :
    SameWritten (valueOf doc source tree frame left).1 (valueOf doc other tree frame' right).1 ∧
      (Reading.valueOf doc source tree frame left).2.map Part.written =
        (Reading.valueOf doc other tree frame' right).2.map Part.written := by
  have hkind : frame.kind = frame'.kind := (Frame.mk.inj hframe).1
  unfold Reading.valueOf
  dsimp only
  rw [hkind]
  cases frame'.kind
  case classDeclaration | interfaceDeclaration | traitDeclaration =>
    exact ⟨hsame.leaveClass, rfl⟩
  case functionDeclaration | methodDeclaration | anonymousFunctionCreationExpression =>
    exact ⟨hsame.leaveFunction, rfl⟩
  case namespaceDefinition =>
    dsimp only
    split
    · exact ⟨hsame.leaveNamespace, rfl⟩
    · exact ⟨hsame, rfl⟩
  case simpleAssignmentExpression | byRefAssignmentExpression =>
    exact ⟨hsame.congr (assign frame left) (assign frame' right),
      congrArg some ((written_assign frame left).trans (written_assign frame' right).symm)⟩
  case relativeScope => exact ⟨hsame.relativeScope doc tree, rfl⟩
  case methodCallExpression | propertyAccessExpression =>
    exact ⟨hsame.memberAccess doc hframe source other _,
      congrArg some ((written_memberAccess ..).trans (written_memberAccess ..).symm)⟩
  case scopedCallExpression | scopedPropertyAccessExpression | classConstantAccessExpression =>
    exact ⟨hsame.scopedAccess doc hframe source other _,
      congrArg some ((written_scopedAccess ..).trans (written_scopedAccess ..).symm)⟩
  case subscriptExpression => exact ⟨hsame, congrArg some (written_subscriptPart hframe)⟩
  case instanceOfExpression =>
    exact ⟨hsame.congr (instanceTest frame left) (instanceTest frame' right), rfl⟩
  case foreachValue => exact ⟨hsame.congr (loopValue frame left) (loopValue frame' right), rfl⟩
  all_goals
    exact ⟨hsame.congr ⟨rfl, rfl, rfl, rfl, rfl⟩ ⟨rfl, rfl, rfl, rfl, rfl⟩, rfl⟩

end

/-- Leaving a phrase does not look at types. -/
theorem leave (hsame : SameWritten left right) (doc : Document) (source other : SymbolSource)
    (tree : Tree) :
    SameWritten (leaveUse doc source tree left) (leaveUse doc other tree right) := by
  rw [leaveUse, leaveUse]
  rcases map_eq_map_cases hsame.frames with
    ⟨hleft, hright⟩ | ⟨frame, rest, frame', rest', hleft, hright, hframe, hrest⟩
  · rw [hleft, hright]
    exact hsame
  · have hinner : SameWritten { left with frames := rest } { right with frames := rest' } :=
      ⟨hsame.resolver, hsame.contexts, hsame.scope, hsame.outer, hrest⟩
    have hvalue := hinner.valueOf doc hframe source other tree
    have hkind : frame.kind = frame'.kind := (Frame.mk.inj hframe).1
    rw [hleft, hright]
    dsimp only
    generalize Reading.valueOf doc source tree frame { left with frames := rest } = value
      at hvalue ⊢
    generalize Reading.valueOf doc other tree frame' { right with frames := rest' } = value'
      at hvalue ⊢
    obtain ⟨state, part⟩ := value
    obtain ⟨state', part'⟩ := value'
    obtain ⟨hstate, hpart⟩ := hvalue
    cases part with
    | none =>
      obtain rfl := Option.map_eq_none_iff.1 hpart.symm
      exact hstate
    | some part =>
      obtain ⟨other, rfl, hwritten⟩ := Option.map_eq_some_iff.1 hpart.symm
      obtain ⟨-, hoperator, -, htext, hrange, hname, hreference⟩ := Part.mk.inj hwritten
      apply hstate.pushPart
      rw [hkind]
      simp only [Part.written, hoperator, htext, hrange, hname, hreference]

theorem closeScopes (hsame : SameWritten left right) :
    SameWritten left.closeScopes right.closeScopes := by
  have hlength : left.outer.length = right.outer.length := by
    rw [← List.length_map (f := Scope.written), hsame.outer, List.length_map]
  rw [UseState.closeScopes, UseState.closeScopes]
  generalize left.outer = outer at hlength
  generalize right.outer = outer' at hlength
  induction outer generalizing left right outer' with
  | nil =>
    rw [List.length_eq_zero_iff.1 hlength.symm]
    exact hsame
  | cons scope rest ih =>
    cases outer' with
    | nil => cases hlength
    | cons scope' rest' => exact ih hsame.closeScope rest' (Nat.succ.inj hlength)

end SameWritten

/-- Walks that know different things of other documents. -/
theorem lockstep_useWalk (doc : Document) (table : SymbolTable) (source other : SymbolSource) :
    (useWalk doc table source).Lockstep (useWalk doc table other) SameWritten where
  descends := rfl
  token leaf _ _ hsame := hsame.token doc table leaf
  enter kind tree _ _ hsame := hsame.enter doc table source other kind tree
  leave _ tree _ _ hsame := hsame.leave doc source other tree

end Reading

open Reading in
/-- Whatever is known of other documents, the references of a document are the same as far as they
are written in it. -/
theorem ReferenceTable.written_ofDocument (doc : Document) (table : SymbolTable)
    (source other : SymbolSource) :
    (ofDocument doc table source).written = (ofDocument doc table other).written := by
  have hrun := (lockstep_useWalk doc table source other).run doc.tree _ _
    (SameWritten.refl (UseState.start doc))
  simp only [ReferenceTable.written, ofDocument, ReferenceTable.new, hrun.closeScopes.scope]

end SymbolIndex
