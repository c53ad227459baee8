import SymbolIndex.Proofs.Reading.Handed
import SymbolIndex.Proofs.Reading.Stacks
import SymbolIndex.Proofs.VariableTable.Conditional

/-!
# What an assignment leaves alone

An assignment gives its type to the first operand among its parts.  What stands
before the value may be any tree: as long as the variable is not mentioned in it,
nothing that happens there records a type for the variable.  Functions put back
the levels that were there before, and the branches of a conditional, when they
are united, have nothing on the variable.  But if no part before the value is an
operand, the first operand is the value itself, and the assignment overwrites it.
-/

namespace SymbolIndex

/-! ## Tables that keep what they know of a name -/

namespace VariableTable

/-- Nothing is recorded for the name. -/
def RecordsNo (name : String) (types : TypeMap) : Prop :=
  ∀ entry ∈ types, entry.1 ≠ name

theorem recordsNo_iff {name : String} {types : TypeMap} :
    RecordsNo name types ↔ types.value? name = none := by
  rw [KeyedList.value?_eq_none_iff, List.mem_map, RecordsNo]
  exact ⟨fun hnone ⟨entry, hmem, hname⟩ => hnone entry hmem hname,
    fun hnone entry hmem hname => hnone ⟨entry, hmem, hname⟩⟩

/-- None of the branches that wait for the end of a conditional has recorded the name. -/
def ParksNo (name : String) (set : VariableSet) : Prop :=
  ∀ branch ∈ set.parked, RecordsNo name branch

/-- Adds branches to those that wait. -/
def park (more : List TypeMap) (set : VariableSet) : VariableSet :=
  { set with parked := set.parked ++ more }

theorem park_nil (set : VariableSet) : park [] set = set := by
  rw [park, List.append_nil]

theorem park_park (first second : List TypeMap) (set : VariableSet) :
    park second (park first set) = park (first ++ second) set := by
  rw [park, park, park, List.append_assoc]

/-- Between the tables before and after a part of a tree in which a variable does
not occur: what the innermost level records of it is the same, and below only
branches were parked that have nothing on it. -/
structure KeepsName (name : String) (before after : VariableTable) : Prop where
  sort : after.top.isScope = before.top.isScope
  top : ParksNo name before.top →
    after.top.types.value? name = before.top.types.value? name ∧ ParksNo name after.top
  below : ∃ more, (∀ branch ∈ more, RecordsNo name branch) ∧
    after.below = before.below.modifyHead (park more)

namespace KeepsName

variable {name : String} {before table after : VariableTable}

/-- Where the levels below are untouched, the innermost one decides. -/
theorem of_below (hsort : after.top.isScope = before.top.isScope)
    (htop : ParksNo name before.top →
      after.top.types.value? name = before.top.types.value? name ∧ ParksNo name after.top)
    (hbelow : after.below = before.below) : KeepsName name before after := by
  refine ⟨hsort, htop, [], fun _ hmem => absurd hmem List.not_mem_nil, ?_⟩
  rw [hbelow]
  cases before.below with
  | nil => rfl
  | cons set rest => rw [List.modifyHead_cons, park_nil]

theorem refl (table : VariableTable) : KeepsName name table table :=
  of_below rfl (fun hparks => ⟨rfl, hparks⟩) rfl

theorem trans (hleft : KeepsName name before table) (hright : KeepsName name table after) :
    KeepsName name before after := by
  refine ⟨hright.sort.trans hleft.sort, fun hparks => ?_, ?_⟩
  · obtain ⟨hsame, hmiddle⟩ := hleft.top hparks
    obtain ⟨hlater, hafter⟩ := hright.top hmiddle
    exact ⟨hlater.trans hsame, hafter⟩
  · obtain ⟨first, hfirst, hbelow⟩ := hleft.below
    obtain ⟨second, hsecond, hafter⟩ := hright.below
    refine ⟨first ++ second, List.forall_mem_append.2 ⟨hfirst, hsecond⟩, ?_⟩
    rw [hafter, hbelow, List.modifyHead_modifyHead]
    congr 1
    funext set
    exact park_park first second set

theorem setType {other : String} (hne : other ≠ name) (type : String) :
    KeepsName name table (table.setType other type) :=
  of_below rfl (fun hparks => ⟨KeyedList.value?_put_of_ne _ _ hne.symm, hparks⟩) rfl

/-- The type that is known of the variable is the same. -/
theorem getType_eq (hkeeps : KeepsName name before after) (hparks : ParksNo name before.top) :
    after.getType name = before.getType name := by
  obtain ⟨hsame, -⟩ := hkeeps.top hparks
  obtain ⟨more, -, hbelow⟩ := hkeeps.below
  have hlookup : lookup name after.below = lookup name before.below := by
    rw [hbelow]
    cases before.below with
    | nil => rfl
    | cons set rest => rfl
  rw [getType, getType, lookup, lookup, hsame, hkeeps.sort, hlookup]

/-- The branches of a conditional in which the variable does not occur. -/
theorem conditional (hinside : KeepsName name before.openBranch after) :
    KeepsName name before after.closeBranch.uniteBranches := by
  obtain ⟨hsame, -⟩ := hinside.top fun _ hmem => absurd hmem List.not_mem_nil
  obtain ⟨more, hmore, hbelow⟩ := hinside.below
  have hclosed : after.closeBranch =
      ⟨park (more ++ [after.top.types]) before.top, before.below⟩ := by
    rw [closeBranch, if_neg (Bool.eq_false_iff.1 hinside.sort), hbelow]
    exact congrArg (VariableTable.mk · before.below) (park_park more [after.top.types] before.top)
  rw [hclosed]
  refine of_below rfl (fun hparks => ⟨?_, fun _ hmem => absurd hmem List.not_mem_nil⟩) rfl
  apply TypeMap.value?_uniteAll_of_ne
  refine List.forall_mem_append.2 ⟨hparks, List.forall_mem_append.2 ⟨hmore, ?_⟩⟩
  exact List.forall_mem_singleton.2 (recordsNo_iff.2 hsame)

/-- A branch that swaps another for itself. -/
theorem clause (hbranch : before.InBranch) (hnone : before.top.types.value? name = none)
    (hinside : KeepsName name before.closeBranch.openBranch after) :
    KeepsName name before after := by
  obtain ⟨top, below⟩ := before
  obtain ⟨hsort, hbelow⟩ := hbranch
  cases below with
  | nil => exact absurd rfl hbelow
  | cons next rest =>
      have hclosed : closeBranch ⟨top, next :: rest⟩ = ⟨park [top.types] next, rest⟩ :=
        if_neg (Bool.eq_false_iff.1 hsort)
      rw [hclosed] at hinside
      obtain ⟨hsame, hparks⟩ := hinside.top fun _ hmem => absurd hmem List.not_mem_nil
      obtain ⟨more, hmore, hafter⟩ := hinside.below
      refine ⟨hinside.sort.trans hsort.symm, fun _ => ⟨hsame.trans hnone.symm, hparks⟩,
        top.types :: more, List.forall_mem_cons.2 ⟨recordsNo_iff.2 hnone, hmore⟩, ?_⟩
      rw [hafter]
      exact congrArg (· :: rest) (park_park [top.types] more next)

end KeepsName

end VariableTable

namespace Reading

open VariableTable

variable {doc : Document} {table : SymbolTable} {source : SymbolSource}

/-! ## What steps record -/

/-- Types are set one after the other, for variables of some names. -/
inductive SetsTypes (names : String → Prop) (before : VariableTable) : VariableTable → Prop
  | refl : SetsTypes names before before
  | setType {after : VariableTable} {name : String} (hsets : SetsTypes names before after)
      (hname : names name) (type : String) : SetsTypes names before (after.setType name type)

namespace SetsTypes

variable {names : String → Prop} {before after : VariableTable}

theorem of_eq (hsame : after = before) : SetsTypes names before after :=
  hsame ▸ .refl

theorem eq_of_none (hsets : SetsTypes names before after) (hnone : ∀ name, ¬ names name) :
    after = before := by
  cases hsets with
  | refl => rfl
  | setType _ hname => exact absurd hname (hnone _)

theorem keepsName {name : String} (hsets : SetsTypes names before after) (hnames : ¬ names name) :
    KeepsName name before after := by
  induction hsets with
  | refl => exact KeepsName.refl before
  | @setType _ other _ hother type ih =>
      exact ih.trans (KeepsName.setType (fun heq : other = name => hnames (heq ▸ hother)) type)

theorem parked_eq (hsets : SetsTypes names before after) :
    after.top.parked = before.top.parked := by
  induction hsets with
  | refl => rfl
  | setType _ _ _ ih => exact ih

/-- Edits that leave the levels alone only set types. -/
theorem of_edits {allowed : Allowed} {parts : List Part} {state edited : UseState}
    (hedits : state.Edits allowed parts edited) (hlevels : ¬ allowed.levels) :
    SetsTypes allowed.names state.varTypes edited.varTypes := by
  induction hedits with
  | refl => exact .refl
  | emit _ _ ih | patchType _ _ _ ih | setPending _ _ ih | setResolver _ _ ih => exact ih
  | pushPart _ _ ih =>
      rw [UseState.varTypes_pushPart]
      exact ih
  | setVariable _ hname type ih => exact ih.setType hname type
  | setLevels _ hallowed => exact absurd hallowed hlevels

end SetsTypes

theorem movesLevels_of_isAssignment {kind : PhraseKind} (hkind : isAssignment kind = true) :
    movesLevels kind = false := by
  cases kind
  case simpleAssignmentExpression | byRefAssignmentExpression => rfl
  all_goals cases hkind

variable {state : UseState}

theorem setsTypes_useToken (leaf : Token) :
    SetsTypes (Allowed.atToken doc leaf).names state.varTypes
      (useToken doc table leaf state).varTypes :=
  .of_edits (edits_useToken leaf state) not_false

section

variable {kind : PhraseKind} {children : List Tree} {tree : Tree}

/-- Entering a phrase that moves no levels records no type. -/
theorem varTypes_enterPlain (hplain : movesLevels kind = false) :
    (enterPlain doc table source kind tree state).varTypes = state.varTypes := by
  cases hopens : opensScope (.phrase kind tree.children) with
  | false =>
      obtain ⟨parts, hedits⟩ := @exists_edits_enterPlain doc table source kind tree hopens state
      exact (SetsTypes.of_edits hedits (Bool.eq_false_iff.1 hplain)).eq_of_none
        fun _ hname => hname
  | true =>
      cases kind
      case classDeclaration | interfaceDeclaration | traitDeclaration => rfl
      case namespaceDefinition =>
        have hsets := SetsTypes.of_edits (@edits_namespaceUse doc tree state) Bool.false_ne_true
        refine (hsets.eq_of_none fun _ hname => hname).trans ?_
        split
        · rfl
        · rfl
      case functionDeclaration | methodDeclaration | anonymousFunctionCreationExpression =>
        cases hplain
      all_goals cases hopens

/-- Only the variable that the first operand of a phrase names gets a type where it is left. -/
theorem setsTypes_valueOf {frame : Frame} (hplain : movesLevels frame.kind = false) :
    SetsTypes frame.namesFirst state.varTypes
      (valueOf doc source tree frame state).1.varTypes := by
  cases hopens : opensScope (.phrase frame.kind tree.children) with
  | false => exact .of_edits (edits_valueOf hopens) (Bool.eq_false_iff.1 hplain)
  | true =>
      obtain ⟨kind, parts⟩ := frame
      have hclosed := (closeScope_same state).2.2.2
      cases kind
      case classDeclaration | interfaceDeclaration | traitDeclaration => exact .of_eq hclosed
      case namespaceDefinition =>
        rw [valueOf]
        dsimp only
        split
        · exact .of_eq hclosed
        · exact .refl
      case functionDeclaration | methodDeclaration | anonymousFunctionCreationExpression =>
        cases hplain
      all_goals cases hopens

end

/-! ## Trees in which a variable does not occur -/

variable (doc) in
/-- Neither the variable nor a doc comment, which could name it, occurs. -/
def Ignores (name : String) (tree : Tree) : Prop :=
  tree.mentions doc name = false ∧ ∀ leaf ∈ tree.tokens, leaf.kind ≠ .documentComment

theorem Ignores.child {name : String} {kind : PhraseKind} {children : List Tree} {child : Tree}
    (hignores : Ignores doc name (.phrase kind children)) (hchild : child ∈ children) :
    Ignores doc name child := by
  have hpart : child ∈ (Tree.phrase kind children).parts := Tree.mem_parts_of_mem_children hchild
  refine ⟨Bool.eq_false_iff.2 fun hmentions => ?_, fun leaf hleaf => hignores.2 leaf
    ((Tree.tokens_sublist_of_mem_parts _ hpart).subset hleaf)⟩
  have hphrase : (Tree.phrase kind children).mentions doc name = true :=
    Tree.mentions_of_mem_children hchild hmentions
  exact nomatch hignores.1.symm.trans hphrase

/-- Where clauses may stand, the branch that they swap has nothing on the variable. -/
def Sheltered (name : String) (around : Tree.Surroundings) (table : VariableTable) : Prop :=
  around ≠ .other →
    table.InBranch ∧ table.top.types.value? name = none ∧ ParksNo name table.top

/-- What shelters a variable goes on to shelter it. -/
theorem Sheltered.congr {name : String} {around : Tree.Surroundings} {before after : VariableTable}
    (hsheltered : Sheltered name around before) (hkeeps : KeepsName name before after) :
    Sheltered name around after := by
  intro haround
  obtain ⟨⟨hsort, hbelow⟩, hnone, hparks⟩ := hsheltered haround
  obtain ⟨hsame, hafter⟩ := hkeeps.top hparks
  obtain ⟨more, -, hpark⟩ := hkeeps.below
  refine ⟨⟨hkeeps.sort.trans hsort, fun hempty => hbelow ?_⟩, hsame.trans hnone, hafter⟩
  rw [hpark] at hempty
  exact List.modifyHead_eq_nil_iff.1 hempty

variable (doc table source) in
/-- Going through a tree records nothing of a variable that does not occur there. -/
def SparesIn (name : String) (tree : Tree) (state : UseState) : Prop :=
  ∀ around, tree.clausesInPlace around = true → Sheltered name around state.varTypes →
    Ignores doc name tree →
    KeepsName name state.varTypes ((useWalk doc table source).run tree state).varTypes

variable (doc table source) in
def SparesInAll (name : String) (trees : List Tree) (state : UseState) : Prop :=
  ∀ around, Tree.clausesInPlaceAll around trees = true → Sheltered name around state.varTypes →
    (∀ tree ∈ trees, Ignores doc name tree) →
    KeepsName name state.varTypes ((useWalk doc table source).runAll trees state).varTypes

section

variable {kind : PhraseKind} {children : List Tree} {name : String}

theorem varTypes_enterUse (tree : Tree) :
    (enterUse doc table source kind tree state).varTypes =
      (enterPlain doc table source kind tree state).varTypes := by
  rw [enterUse]
  split
  · rfl
  · rfl

/-- Leaving a phrase records what its value does, by what its children have handed up. -/
theorem varTypes_run {parts : List Part} (hdescends : descendsForUses kind = true)
    (hhanded : HandedAll doc table source children
      (enterUse doc table source kind (.phrase kind children) state) parts) :
    ((useWalk doc table source).run (.phrase kind children) state).varTypes =
      (valueOf doc source (.phrase kind children) ⟨kind, parts⟩
        { (useWalk doc table source).runAll children
            (enterUse doc table source kind (.phrase kind children) state) with
          frames := state.frames }).1.varTypes := by
  rw [run_eq_leaveUse doc table source hdescends,
    (leaveUse_same (hhanded.frames hdescends)).2.2]

/-- A phrase that leaves the levels alone sets types of its first operand at most. -/
theorem setsTypes_run {parts : List Part} (hdescends : descendsForUses kind = true)
    (hhanded : HandedAll doc table source children
      (enterUse doc table source kind (.phrase kind children) state) parts)
    (hplain : movesLevels kind = false) :
    SetsTypes (Frame.mk kind parts).namesFirst
      ((useWalk doc table source).runAll children
        (enterUse doc table source kind (.phrase kind children) state)).varTypes
      ((useWalk doc table source).run (.phrase kind children) state).varTypes := by
  rw [varTypes_run hdescends hhanded]
  exact @setsTypes_valueOf doc source
    { (useWalk doc table source).runAll children
        (enterUse doc table source kind (.phrase kind children) state) with
      frames := state.frames } (.phrase kind children) ⟨kind, parts⟩ hplain

theorem Sheltered.below {around : Tree.Surroundings} {table : VariableTable}
    (hsheltered : Sheltered name around table) (hplain : movesLevels kind = false) :
    Sheltered name (Tree.surroundingsBelow around kind) table := by
  cases kind
  case classDeclaration | interfaceDeclaration | traitDeclaration =>
    exact fun hother => absurd rfl hother
  case functionDeclaration | methodDeclaration | anonymousFunctionCreationExpression |
      ifStatement | switchStatement | elseIfClause | elseClause | caseStatement |
      defaultStatement => cases hplain
  all_goals exact hsheltered

/-- A phrase spares a variable if its children do. -/
theorem sparesIn_phrase (hdescends : descendsForUses kind = true)
    (hchildren : SparesInAll doc table source name children
      (enterUse doc table source kind (.phrase kind children) state)) :
    SparesIn doc table source name (.phrase kind children) state := by
  intro around hplaced hsheltered hignores
  obtain ⟨hplace, hbelow⟩ := Bool.and_eq_true_iff.1 hplaced
  have hparts : ∀ child ∈ children, Ignores doc name child := fun child => hignores.child
  obtain ⟨parts, hhanded⟩ := exists_handedAll doc table source children
    (enterUse doc table source kind (.phrase kind children) state)
  have hinside := fun hshelter => hchildren _ hbelow hshelter hparts
  rw [varTypes_enterUse] at hinside
  cases hmoves : movesLevels kind with
  | false =>
      rw [varTypes_enterPlain hmoves] at hinside
      refine (hinside (hsheltered.below hmoves)).trans
        ((setsTypes_run hdescends hhanded hmoves).keepsName ?_)
      rintro ⟨part, hpart, hname⟩
      obtain ⟨child, hchild, hmentions⟩ := hhanded.exists_mentions (mem_parts_of_first? hpart) hname
      exact nomatch (hparts child hchild).1.symm.trans hmentions
  | true =>
      cases kind
      case functionDeclaration | methodDeclaration | anonymousFunctionCreationExpression =>
        obtain ⟨-, hsame⟩ := (useWalk_relates_balanced doc table source).run (.phrase _ children)
          state around hplaced fun hother => (hsheltered hother).1
        rw [hsame rfl]
        exact KeepsName.refl _
      case ifStatement | switchStatement =>
        rw [varTypes_run hdescends hhanded]
        refine KeepsName.conditional (hinside fun _ => ?_)
        exact ⟨inBranch_openBranch _, rfl, fun _ hmem => absurd hmem List.not_mem_nil⟩
      case elseIfClause | elseClause | caseStatement | defaultStatement =>
        obtain ⟨hbranch, hnone, -⟩ := hsheltered (beq_iff_eq.1 hplace ▸ by decide)
        rw [varTypes_run hdescends hhanded]
        refine KeepsName.clause hbranch hnone (hinside ?_)
        exact fun hother => absurd rfl hother
      all_goals cases hmoves

end

variable (doc table source) in
/-- The walk records nothing of a variable in a tree where it does not occur. -/
theorem useWalk_inducts_spares (name : String) : (useWalk doc table source).Inducts
    (SparesIn doc table source name) (SparesInAll doc table source name) where
  token leaf state around _ _ hignores := by
    obtain ⟨hmentions, hcomments⟩ := hignores
    rw [Walk.run_token]
    refine (setsTypes_useToken leaf).keepsName ?_
    rintro (hcomment | ⟨hkind, hname⟩)
    · exact hcomments leaf List.mem_cons_self hcomment
    have hsome : (Tree.token leaf).mentions doc name = true :=
      Tree.mentions_iff.2 ⟨leaf, List.mem_cons_self, hkind, hname⟩
    exact nomatch hmentions.symm.trans hsome
  passed kind children state hpasses around _ _ _ := by
    have hplain : movesLevels kind = false := by
      cases kind
      all_goals
        first
        | rfl
        | cases hpasses
    rw [Walk.run_of_passes hpasses]
    change KeepsName name state.varTypes
      (enterUse doc table source kind (.phrase kind children) state).varTypes
    rw [varTypes_enterUse, varTypes_enterPlain hplain]
    exact KeepsName.refl _
  phrase kind children state hdescends hchildren := sparesIn_phrase hdescends hchildren
  nil state around _ _ _ := by
    rw [Walk.runAll]
    exact KeepsName.refl _
  cons tree rest state htree hrest around hplaced hsheltered hignores := by
    obtain ⟨hfirst, hlater⟩ := Bool.and_eq_true_iff.1 hplaced
    obtain ⟨hignored, hothers⟩ := List.forall_mem_cons.1 hignores
    have hkeeps := htree around hfirst hsheltered hignored
    rw [Walk.runAll]
    exact hkeeps.trans (hrest around hlater (hsheltered.congr hkeeps) hothers)

/-! ## Branches that wait -/

/-- No branch waits above the levels around. -/
def ParksNone (state : UseState) : Prop :=
  state.varTypes.top.parked = []

theorem ParksNone.parksNo (hnone : ParksNone state) (name : String) :
    ParksNo name state.varTypes.top := by
  rw [ParksNone] at hnone
  rw [ParksNo, hnone]
  exact fun _ hmem => absurd hmem List.not_mem_nil

theorem parked_functionVariables (symbol : Symbol) (className : String)
    (around : VariableTable) :
    (functionVariables symbol className around).top.parked = [] := by
  have hparameters : ∀ (parameters : List Symbol) (known : VariableTable),
      (parameters.foldl (fun known parameter => known.setType parameter.name parameter.type)
        known).top.parked = known.top.parked := by
    intro parameters
    induction parameters with
    | nil => exact fun _ => rfl
    | cons parameter rest ih => exact fun known => ih _
  rw [functionVariables]
  split
  · exact hparameters _ _
  · exact hparameters _ _

/-- The levels that a phrase opens have no branches that wait. -/
theorem parksNone_enterUse {kind : PhraseKind} {tree : Tree} (hnone : ParksNone state) :
    ParksNone (enterUse doc table source kind tree state) := by
  rw [ParksNone, varTypes_enterUse]
  cases hmoves : movesLevels kind with
  | false =>
      rw [varTypes_enterPlain hmoves]
      exact hnone
  | true =>
      cases kind
      case functionDeclaration | methodDeclaration | anonymousFunctionCreationExpression =>
        exact parked_functionVariables _ _ _
      case ifStatement | switchStatement | elseIfClause | elseClause | caseStatement |
          defaultStatement => rfl
      all_goals cases hmoves

variable (doc table source) in
/-- Where clauses are in place, no branch waits behind a tree before which none did. -/
def ClearIn (tree : Tree) (state : UseState) : Prop :=
  ∀ around, tree.clausesInPlace around = true → state.Fits around → ParksNone state →
    ParksNone ((useWalk doc table source).run tree state)

variable (doc table source) in
def ClearInAll (trees : List Tree) (state : UseState) : Prop :=
  ∀ around, Tree.clausesInPlaceAll around trees = true → state.Fits around → ParksNone state →
    ParksNone ((useWalk doc table source).runAll trees state)

theorem clearIn_phrase {kind : PhraseKind} {children : List Tree}
    (hdescends : descendsForUses kind = true)
    (hchildren : ClearInAll doc table source children
      (enterUse doc table source kind (.phrase kind children) state)) :
    ClearIn doc table source (.phrase kind children) state := by
  intro around hplaced hfits hnone
  obtain ⟨-, hbelow⟩ := Bool.and_eq_true_iff.1 hplaced
  have hinside := hchildren _ hbelow (fits_enterUse hfits) (parksNone_enterUse hnone)
  obtain ⟨parts, hhanded⟩ := exists_handedAll doc table source children
    (enterUse doc table source kind (.phrase kind children) state)
  cases hmoves : movesLevels kind with
  | false =>
      rw [ParksNone, (setsTypes_run hdescends hhanded hmoves).parked_eq]
      exact hinside
  | true =>
      cases kind
      case functionDeclaration | methodDeclaration | anonymousFunctionCreationExpression =>
        obtain ⟨-, hsame⟩ := (useWalk_relates_balanced doc table source).run (.phrase _ children)
          state around hplaced hfits
        rw [ParksNone, hsame rfl]
        exact hnone
      case ifStatement | switchStatement =>
        rw [ParksNone, varTypes_run hdescends hhanded]
        rfl
      case elseIfClause | elseClause | caseStatement | defaultStatement =>
        rw [ParksNone, varTypes_run hdescends hhanded]
        exact hinside
      all_goals cases hmoves

variable (doc table source) in
/-- The walk leaves no branch waiting behind a tree. -/
theorem useWalk_inducts_clear : (useWalk doc table source).Inducts (ClearIn doc table source)
    (ClearInAll doc table source) where
  token leaf state around _ _ hnone := by
    rw [Walk.run_token]
    exact (setsTypes_useToken leaf).parked_eq.trans hnone
  passed kind children state hpasses around _ _ hnone := by
    rw [Walk.run_of_passes hpasses]
    exact parksNone_enterUse hnone
  phrase kind children state hdescends hchildren := clearIn_phrase hdescends hchildren
  nil state around _ _ hnone := by
    rw [Walk.runAll]
    exact hnone
  cons tree rest state htree hrest around hplaced hfits hnone := by
    obtain ⟨hfirst, hlater⟩ := Bool.and_eq_true_iff.1 hplaced
    have hsame := ((useWalk_relates_balanced doc table source).run tree state around hfirst hfits).1
    rw [Walk.runAll]
    exact hrest around hlater (hfits.congr hsame) (htree around hfirst hfits hnone)

/-- Wherever the walk comes to in a tree with its clauses in place, no branch waits. -/
theorem parksNone_of_visits {tree part : Tree} {before : UseState} {around : Tree.Surroundings}
    (hvisits : (useWalk doc table source).Visits tree state part before)
    (hplaced : tree.clausesInPlace around = true) (hfits : state.Fits around)
    (hnone : ParksNone state) : ParksNone before := by
  induction hvisits generalizing around with
  | here => exact hnone
  | @inside kind earlier later child _ state _ _ _ ih =>
      obtain ⟨hearlier, hchild, harrived⟩ := fits_child doc table source hplaced hfits
      have hentered : (enterUse doc table source kind (.phrase kind (earlier ++ child :: later))
          state).Fits (Tree.surroundingsBelow around kind) := fits_enterUse hfits
      have hclear := (useWalk_inducts_clear doc table source).trees earlier _ _ hearlier hentered
        (parksNone_enterUse hnone)
      exact ih hchild harrived hclear

/-! ## Assignments -/

/-- An assignment of a variable leaves the type of this variable as it is,
whatever stands before the value: some operand in which neither the variable nor
a doc comment occurs, and which has its clauses in place. -/
theorem getType_after_assignment (doc : Document) (table : SymbolTable) (source : SymbolSource)
    (state : UseState) {kind : PhraseKind} (hkind : isAssignment kind = true) {before : List Tree}
    {last : Tree} {leaf : Token} (hlast : last.variableToken? = some leaf)
    (hmentions : ∀ tree ∈ before, tree.mentions doc (doc.tokenText leaf) = false)
    (hcomments : ∀ tree ∈ before, ∀ other ∈ tree.tokens, other.kind ≠ .documentComment)
    (hplaced : Tree.clausesInPlaceAll .other before = true)
    (hparks : ParksNo (doc.tokenText leaf) state.varTypes.top)
    (hoperand : before.any (·.isOperand) = true) :
    ((useWalk doc table source).run (.phrase kind (before ++ [last])) state).varTypes.getType
        (doc.tokenText leaf) = state.varTypes.getType (doc.tokenText leaf) := by
  have hretypes := retypes_of_isAssignment hkind
  have hdescends := descends_of_retypes hretypes
  have hmoves := movesLevels_of_isAssignment hkind
  have hentered : (enterUse doc table source kind (.phrase kind (before ++ [last]))
      state).varTypes = state.varTypes := by
    rw [varTypes_enterUse, varTypes_enterPlain hmoves]
  have hparent := declaresMember_of_retypes doc table source state hretypes
    (.phrase kind (before ++ [last]))
  obtain ⟨parts, hhanded⟩ := exists_handedAll doc table source (before ++ [last])
    (enterUse doc table source kind (.phrase kind (before ++ [last])) state)
  have hbefore := (useWalk_inducts_spares doc table source (doc.tokenText leaf)).trees before
    (enterUse doc table source kind (.phrase kind (before ++ [last])) state) .other hplaced
    (fun hother => absurd rfl hother) fun tree htree => ⟨hmentions tree htree, hcomments tree htree⟩
  have hinside : KeepsName (doc.tokenText leaf) state.varTypes
      ((useWalk doc table source).runAll (before ++ [last])
        (enterUse doc table source kind (.phrase kind (before ++ [last])) state)).varTypes := by
    rw [Walk.runAll_append, Walk.runAll, Walk.runAll, run_of_variableToken? hlast,
      UseState.varTypes_pushPart]
    exact hentered ▸ hbefore
  have hsets := setsTypes_run hdescends hhanded hmoves
  refine (hinside.trans (hsets.keepsName ?_)).getType_eq hparks
  -- The first operand is handed up by what stands before the value.
  rintro ⟨target, htarget, hname⟩
  obtain ⟨first, second, rfl, hfirst, -⟩ := hhanded.exists_of_append
  have hsome : (first.find? (!·.isOperator)).isSome = true := by
    rw [List.find?_isSome, ← List.any_eq_true, hfirst.any_operand hparent, hoperand]
  obtain ⟨found, hfound⟩ := Option.isSome_iff_exists.1 hsome
  rw [Frame.first?_eq_find?] at htarget
  dsimp only at htarget
  rw [List.find?_append, hfound, Option.some_or] at htarget
  cases htarget
  obtain ⟨tree, htree, hmention⟩ := hfirst.exists_mentions (List.mem_of_find?_eq_some hfound) hname
  exact nomatch (hmentions tree htree).symm.trans hmention

/-- A document whose one statement assigns `$y`. -/
def assigningDocument (text : String) (target equals value : Tree) : Document :=
  ⟨"a", text, .phrase .sourceFile [.phrase .statementList [.phrase .expressionStatement
    [.phrase .simpleAssignmentExpression [target, equals, value]]]]⟩

/-- A variable of two characters. -/
def variableAt (offset : UInt32) : Tree :=
  .phrase .simpleVariable [.token ⟨.variableName, offset, 2⟩]

/-- The property `p` of `$x`. -/
def propertyTarget : Tree :=
  .phrase .propertyAccessExpression
    [variableAt 6, .token ⟨.arrow, 8, 2⟩, .phrase .memberName [.token ⟨.plainName, 10, 1⟩]]

/-- Assigning `$y` to a property leaves the type of `$y` as it was. -/
theorem getType_after_assignment_of_property :
    let equals : Tree := .token ⟨.equals, 12, 1⟩
    let doc := assigningDocument "<?php $x->p = $y;" propertyTarget equals (variableAt 14)
    let state := (UseState.start doc).setVariable "$y" "int"
    isAssignment .simpleAssignmentExpression = true ∧
    (variableAt 14).variableToken? = some ⟨.variableName, 14, 2⟩ ∧
    doc.tokenText ⟨.variableName, 14, 2⟩ = "$y" ∧
    (∀ tree ∈ [propertyTarget, equals], tree.mentions doc "$y" = false) ∧
    (∀ tree ∈ [propertyTarget, equals], ∀ leaf ∈ tree.tokens, leaf.kind ≠ .documentComment) ∧
    Tree.clausesInPlaceAll .other [propertyTarget, equals] = true ∧
    ParksNo "$y" state.varTypes.top ∧
    [propertyTarget, equals].any (·.isOperand) = true ∧
    ((useWalk doc (SymbolTable.ofDocument doc) .unknown).run
      (.phrase .simpleAssignmentExpression ([propertyTarget, equals] ++ [variableAt 14]))
      state).varTypes.getType "$y" = state.varTypes.getType "$y" := by
  intro equals doc state
  have hname : doc.tokenText ⟨.variableName, 14, 2⟩ = "$y" := by decide +kernel
  have hmentions : ∀ tree ∈ [propertyTarget, equals], tree.mentions doc "$y" = false := by
    decide +kernel
  have hcomments : ∀ tree ∈ [propertyTarget, equals], ∀ leaf ∈ tree.tokens,
      leaf.kind ≠ .documentComment := by
    decide +kernel
  have hparks : ParksNo "$y" state.varTypes.top := fun _ hmem => absurd hmem List.not_mem_nil
  refine ⟨rfl, rfl, hname, hmentions, hcomments, by decide +kernel, hparks, by decide +kernel, ?_⟩
  have hsame := @getType_after_assignment doc (SymbolTable.ofDocument doc) .unknown state
    .simpleAssignmentExpression rfl [propertyTarget, equals] (variableAt 14)
    ⟨.variableName, 14, 2⟩ rfl (by rwa [hname]) hcomments (by decide +kernel) (by rwa [hname])
    (by decide +kernel)
  rwa [hname] at hsame

/-- The variable that is named by `$x`. -/
def variableVariable : Tree :=
  .phrase .simpleVariable [.token ⟨.unknown, 6, 1⟩, variableAt 7]

/-- A variable variable hands up nothing, so the variable that is assigned to it
is taken for the target and loses its type. -/
theorem assignment_overwrites_value :
    let equals : Tree := .token ⟨.equals, 10, 1⟩
    let doc := assigningDocument "<?php $$x = $y;" variableVariable equals (variableAt 12)
    let state := (UseState.start doc).setVariable "$y" "int"
    variableVariable.mentions doc "$y" = false ∧
    (∀ leaf ∈ variableVariable.tokens, leaf.kind ≠ .documentComment) ∧
    (variableAt 12).variableToken?.map doc.tokenText = some "$y" ∧
    state.varTypes.getType "$y" = "int" ∧
    ((useWalk doc (SymbolTable.ofDocument doc) .unknown).run
      (.phrase .simpleAssignmentExpression [variableVariable, equals, variableAt 12])
      state).varTypes.getType "$y" = "" := by
  decide +kernel

end Reading

end SymbolIndex
