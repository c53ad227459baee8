import SymbolIndex.Proofs.Reading.Emissions
import SymbolIndex.Proofs.Reading.Handed
import SymbolIndex.Proofs.VariableTable.Levels
import SymbolIndex.Tree.Snippet

/-!
# Types that references get later

A variable is mentioned before the value is read that it is assigned, so an
assignment goes back to the mention of its target and gives it the type, and so
does the head of a loop.  All it knows of the mention is its place in the scope
that was open.  In the order in which they are emitted the references of all
scopes are one list, to which the walk only adds at the end, so the numbers of
what is below a part of a tree are those between its beginning and its end.  Hence
no other reference stands at the place, and none but these mentions ever changes.
-/

namespace SymbolIndex

namespace Reading

open Scope

variable {doc : Document} {table : SymbolTable} {source : SymbolSource}

/-! ## References in the order of their emission -/

namespace UseState

/-- All references so far, those of the scopes around first. -/
def references (state : UseState) : List Reference :=
  allReferencesIn ((state.scope :: state.outer).reverse.flatMap Scope.children)

variable {state : UseState}

theorem references_eq (state : UseState) :
    state.references = allReferencesIn (state.outer.reverse.flatMap Scope.children) ++
      allReferencesIn state.scope.children := by
  rw [references, List.reverse_cons, List.flatMap_append, allReferencesIn_append,
    List.flatMap_singleton]

theorem references_closeScope (state : UseState) :
    state.closeScope.references = state.references := by
  cases houter : state.outer with
  | nil => rw [closeScope, houter]
  | cons around rest =>
      rw [closeScope_of_outer houter, references_eq, references, houter, List.reverse_cons,
        List.reverse_cons, List.flatMap_append, List.flatMap_append]
      dsimp only
      rw [List.flatMap_singleton, List.flatMap_singleton, allReferencesIn_append,
        allReferencesIn_append, allReferencesIn_append, allReferencesIn, allReferencesIn,
        allReferences_eq, List.append_nil, List.append_assoc]

theorem references_emit (state : UseState) (reference : Reference) :
    (state.emit reference).references = state.references ++ [reference] := by
  rw [references_eq, references_eq, List.append_assoc]
  exact congrArg _ (allReferencesIn_append _ _)

theorem references_of_scopes {other : UseState} (hscope : other.scope = state.scope)
    (houter : other.outer = state.outer) : other.references = state.references := by
  rw [references, references, hscope, houter]

theorem Grows.references_grow {after : UseState} {parts : List Part}
    (hgrows : state.Grows parts after) : state.references <+: after.references := by
  obtain ⟨rest, hrest⟩ := hgrows.children
  rw [references_eq, references_eq, hgrows.outer, ← hrest, allReferencesIn_append,
    ← List.append_assoc]
  exact List.prefix_append _ _

end UseState

def retyped (type : String) (reference : Reference) : Reference :=
  { reference with type := type }

/-- The reference at a place of a scope is, among all of its references, the one
behind those that come before the place. -/
theorem allReferencesIn_modify (type : String) {children : List ScopeChild} {place : Nat}
    {reference : Reference} (hplace : children[place]? = some (.reference reference)) :
    allReferencesIn (children.modify place (UseState.withType type)) =
      (allReferencesIn children).modify (allReferencesIn (children.take place)).length
        (retyped type) := by
  have hdrop : children.drop place = .reference reference :: children.drop (place + 1) := by
    obtain ⟨hlt, hget⟩ := List.getElem?_eq_some_iff.1 hplace
    rw [List.drop_eq_getElem_cons hlt, hget]
  have hchildren : allReferencesIn children = allReferencesIn (children.take place) ++
      reference :: allReferencesIn (children.drop (place + 1)) := by
    have hsplit := congrArg allReferencesIn (List.take_append_drop place children)
    rw [hdrop, allReferencesIn_append, allReferencesIn] at hsplit
    exact hsplit.symm
  rw [hchildren, List.modify_eq_take_drop, List.modify_eq_take_drop, List.take_left,
    List.drop_left, hdrop, List.modifyHead_cons, List.modifyHead_cons, allReferencesIn_append]
  rfl

/-! ## What is emitted, and what gets a type later -/

/-- The references by which one list is longer than another. -/
def gained (before after : UseState) : List Reference :=
  after.references.drop before.references.length

variable (doc table source) in
mutual

/-- The references as the walk emits them on its way through a tree, in order. -/
def emissions : Tree → UseState → List Reference
  | .token leaf, state => gained state (useToken doc table leaf state)
  | .phrase kind children, state =>
    let entered := enterUse doc table source kind (.phrase kind children) state
    let inside := (useWalk doc table source).runAll children entered
    gained state entered ++
      if descendsForUses kind then
        emissionsAll children entered ++
          gained inside (leaveUse doc source (.phrase kind children) inside)
      else []

def emissionsAll : List Tree → UseState → List Reference
  | [], _ => []
  | tree :: rest, state =>
    emissions tree state ++ emissionsAll rest ((useWalk doc table source).run tree state)

end

variable (doc table source) in
/-- Where the walk leaves an assignment to a plain variable, or the head of a loop
over one, the variable has been mentioned in the reference of a number, and a type
is recorded for it. -/
inductive RetypedAt : Tree → UseState → Nat → Reference → String → Prop
  | target {kind : PhraseKind} {children earlier later : List Tree} {occurrence : Tree}
      {leaf : Token} {before arrived : UseState} (hretypes : retypes kind = true)
      (htarget : TargetIn children earlier occurrence later leaf)
      (harrived : arrived = (useWalk doc table source).runAll earlier
        (enterUse doc table source kind (.phrase kind children) before)) :
      RetypedAt (.phrase kind children) before arrived.references.length
        (mentionOf doc leaf arrived)
        (((useWalk doc table source).run (.phrase kind children) before).varTypes.getType
          (doc.tokenText leaf))

variable (doc table source) in
/-- This happens somewhere on the way through a tree. -/
def RetypedIn (tree : Tree) (state : UseState) (place : Nat) (mention : Reference)
    (type : String) : Prop :=
  ∃ part before, (useWalk doc table source).Visits tree state part before ∧
    RetypedAt doc table source part before place mention type

variable (doc table source) in
/-- It happens on the way through trees one after the other. -/
def RetypedAmong (trees : List Tree) (state : UseState) (place : Nat) (mention : Reference)
    (type : String) : Prop :=
  ∃ earlier tree later, trees = earlier ++ tree :: later ∧
    RetypedIn doc table source tree ((useWalk doc table source).runAll earlier state) place
      mention type

/-! ### Some references change -/

/-- What becomes of references: behind the ones that were there come those that
are emitted, and some of them get another type. -/
structure Settles (before emitted : List Reference) (changes : Nat → Reference → String → Prop)
    (after : List Reference) : Prop where
  kept : before <+: after
  length_eq : after.length = before.length + emitted.length
  behind : ∀ {place mention type}, changes place mention type → before.length ≤ place
  changed : ∀ {place mention type}, changes place mention type →
    (before ++ emitted)[place]? = some mention ∧ after[place]? = some (retyped type mention)
  same : ∀ {place}, (∀ mention type, ¬ changes place mention type) →
    after[place]? = (before ++ emitted)[place]?

namespace Settles

variable {before emitted after : List Reference} {changes others : Nat → Reference → String → Prop}

/-- A step that changes no type. -/
theorem of_extended (hgrown : before <+: after)
    (hnone : ∀ place mention type, ¬ changes place mention type) :
    Settles before (after.drop before.length) changes after := by
  have hafter : before ++ after.drop before.length = after := by
    obtain ⟨rest, rfl⟩ := hgrown
    rw [List.drop_left]
  exact
    { kept := hgrown
      length_eq := by rw [← List.length_append, hafter]
      behind := fun hchange => (hnone _ _ _ hchange).elim
      changed := fun hchange => (hnone _ _ _ hchange).elim
      same := fun _ => by rw [hafter] }

theorem lt_length (hsettles : Settles before emitted changes after) {place : Nat}
    {mention : Reference} {type : String} (hchange : changes place mention type) :
    place < after.length :=
  (List.getElem?_eq_some_iff.1 (hsettles.changed hchange).2).1

/-- One after the other: what the second changes stands behind what the first does. -/
theorem append {more last : List Reference} {later : Nat → Reference → String → Prop}
    (hleft : Settles before emitted changes after) (hright : Settles after more later last)
    (hothers : ∀ place mention type, others place mention type ↔
      changes place mention type ∨ later place mention type) :
    Settles before (emitted ++ more) others last := by
  have hlength : (before ++ emitted).length = after.length := by
    rw [List.length_append, hleft.length_eq]
  have hfront {place : Nat} (hlt : place < after.length) :
      (before ++ (emitted ++ more))[place]? = (before ++ emitted)[place]? := by
    rw [← List.append_assoc, List.getElem?_append_left (hlength ▸ hlt)]
  have hback {place : Nat} (hle : after.length ≤ place) :
      (before ++ (emitted ++ more))[place]? = (after ++ more)[place]? := by
    rw [← List.append_assoc, List.getElem?_append_right (hlength ▸ hle),
      List.getElem?_append_right hle, hlength]
  have hkept {place : Nat} (hlt : place < after.length) : last[place]? = after[place]? := by
    obtain ⟨rest, rfl⟩ := hright.kept
    rw [List.getElem?_append_left hlt]
  refine ⟨hleft.kept.trans hright.kept, ?_, fun hchange => ?_, fun hchange => ?_,
    fun {place} hnone => ?_⟩
  · rw [hright.length_eq, hleft.length_eq, List.length_append, Nat.add_assoc]
  · rcases (hothers _ _ _).1 hchange with hfirst | hsecond
    · exact hleft.behind hfirst
    · exact Nat.le_trans (hleft.length_eq ▸ Nat.le_add_right _ _) (hright.behind hsecond)
  · rcases (hothers _ _ _).1 hchange with hfirst | hsecond
    · have hlt := hleft.lt_length hfirst
      rw [hfront hlt, hkept hlt]
      exact hleft.changed hfirst
    · rw [hback (hright.behind hsecond)]
      exact hright.changed hsecond
  · have hfirst : ∀ mention type, ¬ changes place mention type := fun mention type hchange =>
      hnone mention type ((hothers _ _ _).2 (Or.inl hchange))
    have hsecond : ∀ mention type, ¬ later place mention type := fun mention type hchange =>
      hnone mention type ((hothers _ _ _).2 (Or.inr hchange))
    rcases Nat.lt_or_ge place after.length with hlt | hge
    · rw [hfront hlt, hkept hlt, hleft.same hfirst]
    · rw [hback hge, hright.same hsecond]

/-- One more type is changed, of a reference that was emitted and not changed so far. -/
theorem modify {place : Nat} {mention : Reference} {type : String}
    (hsettles : Settles before emitted changes after) (hbehind : before.length ≤ place)
    (hmention : after[place]? = some mention)
    (hfresh : ∀ mention type, ¬ changes place mention type)
    (hothers : ∀ index reference given, others index reference given ↔
      changes index reference given ∨ index = place ∧ reference = mention ∧ given = type) :
    Settles before emitted others (after.modify place (retyped type)) := by
  refine ⟨?_, ?_, fun hchange => ?_, fun {index reference given} hchange => ?_,
    fun {index} hnone => ?_⟩
  · rw [List.modify_eq_take_drop]
    exact (List.prefix_take_iff.2 ⟨hsettles.kept, hbehind⟩).trans (List.prefix_append _ _)
  · rw [List.length_modify, hsettles.length_eq]
  · rcases (hothers _ _ _).1 hchange with hfirst | ⟨rfl, -, -⟩
    · exact hsettles.behind hfirst
    · exact hbehind
  · rcases (hothers _ _ _).1 hchange with hfirst | ⟨rfl, rfl, rfl⟩
    · have hne : place ≠ index := fun heq => hfresh _ _ (heq ▸ hfirst)
      rw [List.getElem?_modify_ne _ _ hne]
      exact hsettles.changed hfirst
    · rw [← hsettles.same hfresh, List.getElem?_modify_eq, hmention]
      exact ⟨rfl, rfl⟩
  · have hne : place ≠ index := fun heq =>
      hnone mention type ((hothers _ _ _).2 (Or.inr ⟨heq.symm, rfl, rfl⟩))
    rw [List.getElem?_modify_ne _ _ hne]
    exact hsettles.same fun reference given hchange =>
      hnone reference given ((hothers _ _ _).2 (Or.inl hchange))

end Settles

/-! ## Where types are given later -/

section

variable {kind : PhraseKind} {children : List Tree} {state : UseState} {place : Nat}
  {mention : Reference} {type : String}

theorem not_retypedIn_token (leaf : Token) :
    ¬ RetypedIn doc table source (.token leaf) state place mention type := by
  rintro ⟨part, before, hvisits, hretyped⟩
  cases hvisits
  cases hretyped

theorem not_retypedIn_passed (hpasses : descendsForUses kind = false) :
    ¬ RetypedIn doc table source (.phrase kind children) state place mention type := by
  rintro ⟨part, before, hvisits, hretyped⟩
  cases hvisits with
  | here =>
      cases hretyped with
      | target hretypes => exact nomatch hpasses.symm.trans (descends_of_retypes hretypes)
  | inside hdescends => exact nomatch hpasses.symm.trans hdescends

/-- Types are given below a phrase, or where it is left. -/
theorem retypedIn_phrase_iff (hdescends : descendsForUses kind = true) :
    RetypedIn doc table source (.phrase kind children) state place mention type ↔
      RetypedAmong doc table source children
        (enterUse doc table source kind (.phrase kind children) state) place mention type ∨
      RetypedAt doc table source (.phrase kind children) state place mention type := by
  constructor
  · rintro ⟨part, before, hvisits, hretyped⟩
    cases hvisits with
    | here => exact Or.inr hretyped
    | @inside _ earlier later child _ _ _ _ hvisits =>
        exact Or.inl ⟨earlier, child, later, rfl, part, before, hvisits, hretyped⟩
  · rintro (⟨earlier, child, later, rfl, part, before, hvisits, hretyped⟩ | hretyped)
    · exact ⟨part, before, hvisits.inside hdescends, hretyped⟩
    · exact ⟨_, _, Walk.Visits.here _ _, hretyped⟩

theorem not_retypedAmong_nil :
    ¬ RetypedAmong doc table source [] state place mention type := by
  rintro ⟨earlier, tree, later, hsplit, -⟩
  simp at hsplit

/-- Types are given in the first trees or in the later ones. -/
theorem retypedAmong_append_iff {left right : List Tree} :
    RetypedAmong doc table source (left ++ right) state place mention type ↔
      RetypedAmong doc table source left state place mention type ∨
      RetypedAmong doc table source right ((useWalk doc table source).runAll left state) place
        mention type := by
  constructor
  · rintro ⟨earlier, tree, later, hsplit, hretyped⟩
    rcases List.append_eq_append_iff.1 hsplit with ⟨front, rfl, hright⟩ | ⟨back, rfl, hback⟩
    · rw [Walk.runAll_append] at hretyped
      exact Or.inr ⟨front, tree, later, hright, hretyped⟩
    · cases back with
      | nil =>
        rw [List.append_nil]
        exact Or.inr ⟨[], tree, later, hback.symm, hretyped⟩
      | cons first rest =>
          cases hback
          exact Or.inl ⟨earlier, _, rest, rfl, hretyped⟩
  · rintro (⟨earlier, tree, later, rfl, hretyped⟩ | ⟨earlier, tree, later, rfl, hretyped⟩)
    · exact ⟨earlier, tree, later ++ right, by rw [List.append_assoc, List.cons_append], hretyped⟩
    · refine ⟨left ++ earlier, tree, later, (List.append_assoc _ _ _).symm, ?_⟩
      rwa [Walk.runAll_append]

theorem retypedAmong_singleton_iff {tree : Tree} :
    RetypedAmong doc table source [tree] state place mention type ↔
      RetypedIn doc table source tree state place mention type := by
  constructor
  · rintro ⟨earlier, part, later, hsplit, hretyped⟩
    rcases List.cons_eq_append_iff.1 hsplit with ⟨rfl, hsame⟩ | ⟨front, -, hnone⟩
    · cases hsame
      rwa [Walk.runAll] at hretyped
    · simp at hnone
  · intro hretyped
    refine ⟨[], tree, [], rfl, ?_⟩
    rwa [Walk.runAll]

/-- The first operand is told by the children. -/
theorem TargetIn.unique {earlier later front back : List Tree} {occurrence other : Tree}
    {leaf found : Token} (hleft : TargetIn children earlier occurrence later leaf)
    (hright : TargetIn children front other back found) : earlier = front ∧ leaf = found := by
  have hfront {earlier later : List Tree} {occurrence : Tree} {leaf : Token}
      (htarget : TargetIn children earlier occurrence later leaf) :
      earlier = children.takeWhile (!·.isOperand) := by
    have hoperand := Tree.isOperand_of_variableToken? htarget.plain
    rw [htarget.split, List.takeWhile_append_of_pos fun tree htree => by
        rw [htarget.first tree htree]
        rfl,
      List.takeWhile_cons_of_neg (by rw [hoperand]; exact Bool.false_ne_true), List.append_nil]
  have hsame : earlier = front := (hfront hleft).trans (hfront hright).symm
  subst hsame
  have hrest := List.append_cancel_left (hleft.split.symm.trans hright.split)
  cases hrest
  exact ⟨rfl, Option.some.inj (hleft.plain.symm.trans hright.plain)⟩

end

/-! ## Leaving a phrase with a target -/

variable (doc) in
/-- From the state in which the walk arrives at a variable, to that in which all
is read that it is assigned, and to that behind the assignment: the mention has
stayed at its place, and has got the type that is recorded for the variable. -/
structure Patched (leaf : Token) (type : String) (arrived inside after : UseState) : Prop where
  outer : inside.outer = arrived.outer
  mention : arrived.scope.children ++ [.reference (mentionOf doc leaf arrived)] <+:
    inside.scope.children
  same : after.outer = inside.outer
  children : after.scope.children =
    inside.scope.children.modify arrived.nextPlace (UseState.withType type)
  known : after.varTypes.getType (doc.tokenText leaf) = type

namespace Patched

variable {leaf : Token} {type : String} {arrived inside after : UseState}
  (hpatched : Patched doc leaf type arrived inside after)
include hpatched

theorem getElem?_inside :
    inside.scope.children[arrived.nextPlace]? = some (.reference (mentionOf doc leaf arrived)) := by
  obtain ⟨rest, hrest⟩ := hpatched.mention
  rw [← hrest, List.append_assoc, UseState.nextPlace, List.getElem?_append_right (Nat.le_refl _),
    Nat.sub_self]
  rfl

theorem getElem?_after :
    after.scope.children[arrived.nextPlace]? =
      some (.reference (retyped type (mentionOf doc leaf arrived))) := by
  rw [hpatched.children, List.getElem?_modify_eq, hpatched.getElem?_inside]
  rfl

theorem take_children : inside.scope.children.take arrived.nextPlace = arrived.scope.children := by
  obtain ⟨rest, hrest⟩ := hpatched.mention
  rw [← hrest, List.append_assoc, UseState.nextPlace, List.take_left]

/-- Among all references the mention has the number of those before it. -/
theorem references_inside :
    arrived.references ++ [mentionOf doc leaf arrived] <+: inside.references := by
  obtain ⟨rest, hrest⟩ := hpatched.mention
  rw [UseState.references_eq, UseState.references_eq, hpatched.outer, ← hrest,
    allReferencesIn_append, allReferencesIn_append, ← List.append_assoc, ← List.append_assoc]
  exact List.prefix_append _ _

theorem getElem?_references :
    inside.references[arrived.references.length]? = some (mentionOf doc leaf arrived) := by
  obtain ⟨rest, hrest⟩ := hpatched.references_inside
  rw [← hrest, List.append_assoc, List.getElem?_append_right (Nat.le_refl _), Nat.sub_self]
  rfl

theorem references_after :
    after.references = inside.references.modify arrived.references.length (retyped type) := by
  rw [UseState.references_eq after, UseState.references_eq inside, UseState.references_eq arrived,
    hpatched.same, hpatched.children, allReferencesIn_modify type hpatched.getElem?_inside,
    hpatched.take_children, hpatched.outer, List.length_append, List.modify_eq_take_drop,
    List.modify_eq_take_drop, List.take_length_add_append, List.drop_length_add_append,
    List.append_assoc]

end Patched

section

variable {kind : PhraseKind} {children : List Tree} {state : UseState}

/-- At a plain variable the walk emits its mention. -/
theorem references_run_of_variableToken? {occurrence : Tree} {leaf : Token}
    (hleaf : occurrence.variableToken? = some leaf) (arrived : UseState) :
    ((useWalk doc table source).run occurrence arrived).references =
      arrived.references ++ [mentionOf doc leaf arrived] := by
  obtain ⟨hscope, houter⟩ := UseState.scopes_pushPart (arrived.emit (mentionOf doc leaf arrived))
    (variablePart doc leaf arrived)
  rw [run_of_variableToken? hleaf, UseState.references_of_scopes hscope houter,
    UseState.references_emit]

variable (doc table source) in
/-- A phrase with a target patches the mention of the target. -/
theorem exists_patched {earlier later : List Tree} {occurrence : Tree} {leaf : Token}
    (hretypes : retypes kind = true) (htarget : TargetIn children earlier occurrence later leaf)
    (state : UseState) :
    let entered := enterUse doc table source kind (.phrase kind children) state
    ∃ type, Patched doc leaf type ((useWalk doc table source).runAll earlier entered)
      ((useWalk doc table source).runAll children entered)
      ((useWalk doc table source).run (.phrase kind children) state) := by
  intro entered
  have hdescends := descends_of_retypes hretypes
  obtain ⟨parts, hhanded⟩ := exists_handedAll doc table source children entered
  have hframes := hhanded.frames hdescends
  obtain ⟨pending, type, hvalue⟩ := @exists_valueOf_of_target doc source
    { (useWalk doc table source).runAll children entered with frames := state.frames }
    ⟨kind, parts⟩ (.phrase kind children) hretypes _ _ (hhanded.target?_eq_some hretypes htarget)
  obtain ⟨hscope, houter, hknown⟩ :=
    @leaveUse_same doc source _ _ _ (.phrase kind children) hframes
  rw [hvalue] at hscope houter hknown
  have hafter := run_eq_leaveUse doc table source hdescends children state
  have hinside : (useWalk doc table source).runAll children entered =
      (useWalk doc table source).runAll (occurrence :: later)
        ((useWalk doc table source).runAll earlier entered) := by
    rw [htarget.split, Walk.runAll_append]
  obtain ⟨hsame, hmention⟩ := mention_stays doc table source htarget.plain later
    ((useWalk doc table source).runAll earlier entered)
  rw [← hinside] at hsame hmention
  refine ⟨type, hsame, hmention, ?_, ?_, ?_⟩
  · rw [hafter, houter]
    rfl
  · rw [hafter, hscope]
    rfl
  · rw [hafter, hknown]
    exact VariableTable.getType_setType_self _ _ _

/-- All that leaving any phrase does to references, besides, is to add some. -/
theorem references_prefix_leave {parts : List Part}
    {inside : UseState} (hframes : inside.frames = ⟨kind, parts⟩ :: state.frames)
    (htarget : retypes kind = true → (Frame.mk kind parts).target? = none) :
    inside.references <+: (leaveUse doc source (.phrase kind children) inside).references := by
  obtain ⟨hscope, houter, -⟩ :=
    @leaveUse_same doc source _ _ _ (.phrase kind children) hframes
  rw [UseState.references_of_scopes hscope houter]
  have hpopped : UseState.references { inside with frames := state.frames } = inside.references :=
    rfl
  rw [← hpopped]
  cases hretypes : retypes kind with
  | true => exact (grows_valueOf_of_no_target hretypes (htarget hretypes)).references_grow
  | false =>
      cases hopens : opensScope (.phrase kind children) with
      | false => exact (grows_valueOf hretypes hopens).references_grow
      | true =>
          obtain ⟨hscope, houter, -⟩ := @closes_valueOf doc source (.phrase kind children)
            ⟨kind, parts⟩ { inside with frames := state.frames } hopens
          have hkept := (UseState.references_of_scopes hscope houter).trans
            (UseState.references_closeScope _)
          exact hkept ▸ List.prefix_rfl

variable (doc table source) in
theorem references_prefix_enter (hdescends : descendsForUses kind = true) (children : List Tree)
    (state : UseState) :
    state.references <+:
      (enterUse doc table source kind (.phrase kind children) state).references := by
  have hsame : (enterUse doc table source kind (.phrase kind children) state).references =
      (enterPlain doc table source kind (.phrase kind children) state).references := by
    rw [enterUse, if_pos hdescends]
    rfl
  rw [hsame]
  cases hopens : opensScope (.phrase kind children) with
  | false => exact (grows_enterPlain hdescends hopens).references_grow
  | true =>
      rw [UseState.references_eq (enterPlain _ _ _ _ _ _), outer_enterPlain hopens]
      exact List.prefix_append _ _

end

/-! ## The walk -/

variable (doc table source) in
/-- What becomes of the references on the way through a tree. -/
def SettlesIn (tree : Tree) (state : UseState) : Prop :=
  Settles state.references (emissions doc table source tree state)
    (RetypedIn doc table source tree state) ((useWalk doc table source).run tree state).references

/-- What becomes of references among trees is put together from what each tree does. -/
theorem settles_all (trees : List Tree) (state : UseState)
    (htrees : ∀ earlier tree later, trees = earlier ++ tree :: later →
      SettlesIn doc table source tree ((useWalk doc table source).runAll earlier state)) :
    Settles state.references (emissionsAll doc table source trees state)
      (RetypedAmong doc table source trees state)
      ((useWalk doc table source).runAll trees state).references := by
  induction trees generalizing state with
  | nil =>
      have hsettles : Settles state.references (state.references.drop state.references.length)
          (RetypedAmong doc table source [] state) state.references :=
        Settles.of_extended List.prefix_rfl fun _ _ _ => not_retypedAmong_nil
      rw [List.drop_length] at hsettles
      rw [Walk.runAll, emissionsAll]
      exact hsettles
  | cons tree rest ih =>
      have hfirst := htrees [] tree rest rfl
      rw [Walk.runAll] at hfirst
      have hrest := ih ((useWalk doc table source).run tree state)
        fun earlier part later hsplit => by
          have hpart := htrees (tree :: earlier) part later (congrArg (tree :: ·) hsplit)
          rwa [Walk.runAll] at hpart
      rw [Walk.runAll, emissionsAll]
      refine hfirst.append hrest fun place mention type => ?_
      have happend :=
        @retypedAmong_append_iff doc table source state place mention type [tree] rest
      rw [retypedAmong_singleton_iff, Walk.runAll, Walk.runAll] at happend
      exact happend

section

variable {kind : PhraseKind} {children : List Tree} {state : UseState}

/-- No part of a phrase gives a type to the reference of its target. -/
theorem not_retypedAmong_target {earlier later : List Tree} {occurrence : Tree} {leaf : Token}
    {entered : UseState} (htarget : TargetIn children earlier occurrence later leaf)
    (hchildren : ∀ front child back, children = front ++ child :: back →
      SettlesIn doc table source child ((useWalk doc table source).runAll front entered))
    (mention : Reference) (type : String) :
    ¬ RetypedAmong doc table source children entered
      ((useWalk doc table source).runAll earlier entered).references.length mention type := by
  rw [htarget.split, retypedAmong_append_iff, ← List.singleton_append, retypedAmong_append_iff,
    retypedAmong_singleton_iff]
  rintro (hearlier | hoccurrence | hlater)
  · have hsettles := settles_all earlier entered
      fun front child back hsplit => hchildren front child (back ++ occurrence :: later) (by
        rw [htarget.split, hsplit, List.append_assoc, List.cons_append])
    exact absurd (hsettles.lt_length hearlier) (Nat.lt_irrefl _)
  · obtain ⟨grandchildren, rfl, -⟩ := Tree.exists_children_of_variableToken? htarget.plain
    exact not_retypedIn_passed rfl hoccurrence
  · have hsettles := settles_all later
      ((useWalk doc table source).runAll [occurrence]
        ((useWalk doc table source).runAll earlier entered))
      fun front child back hsplit => by
        have hchild := hchildren (earlier ++ occurrence :: front) child back (by
          rw [htarget.split, hsplit, List.append_assoc, List.cons_append])
        rwa [Walk.runAll_append, ← List.singleton_append, Walk.runAll_append] at hchild
    have hbehind := hsettles.behind hlater
    rw [Walk.runAll, Walk.runAll, references_run_of_variableToken? htarget.plain,
      List.length_append] at hbehind
    exact absurd hbehind (Nat.not_succ_le_self _)

/-- Only the mention of its target gets another type where a phrase is left. -/
theorem retypedAt_iff {earlier later : List Tree} {occurrence : Tree} {leaf : Token}
    {arrived : UseState} {type : String} (hretypes : retypes kind = true)
    (htarget : TargetIn children earlier occurrence later leaf)
    (harrived : arrived = (useWalk doc table source).runAll earlier
      (enterUse doc table source kind (.phrase kind children) state))
    (hknown : ((useWalk doc table source).run (.phrase kind children) state).varTypes.getType
      (doc.tokenText leaf) = type) (place : Nat) (mention : Reference) (given : String) :
    RetypedAt doc table source (.phrase kind children) state place mention given ↔
      place = arrived.references.length ∧ mention = mentionOf doc leaf arrived ∧
        given = type := by
  constructor
  · rintro ⟨-, hother, rfl⟩
    obtain ⟨rfl, rfl⟩ := htarget.unique hother
    rw [hknown, harrived]
    exact ⟨rfl, rfl, rfl⟩
  · rintro ⟨rfl, rfl, rfl⟩
    rw [← hknown]
    exact RetypedAt.target hretypes htarget harrived

/-- What has become of the references before a phrase is left. -/
theorem settles_inside (hdescends : descendsForUses kind = true)
    (hchildren : ∀ front child back, children = front ++ child :: back →
      SettlesIn doc table source child ((useWalk doc table source).runAll front
        (enterUse doc table source kind (.phrase kind children) state))) :
    Settles state.references
      (gained state (enterUse doc table source kind (.phrase kind children) state) ++
        emissionsAll doc table source children
          (enterUse doc table source kind (.phrase kind children) state))
      (RetypedAmong doc table source children
        (enterUse doc table source kind (.phrase kind children) state))
      ((useWalk doc table source).runAll children
        (enterUse doc table source kind (.phrase kind children) state)).references :=
  have hkept := references_prefix_enter doc table source hdescends children state
  (Settles.of_extended hkept fun _ _ _ => id).append (settles_all children _ hchildren)
    fun _ _ _ => (or_iff_right id).symm

/-- A phrase emits references where it is entered, then those of its children, then some where it
is left. -/
theorem emissions_phrase (hdescends : descendsForUses kind = true) :
    emissions doc table source (.phrase kind children) state =
      gained state (enterUse doc table source kind (.phrase kind children) state) ++
        emissionsAll doc table source children
          (enterUse doc table source kind (.phrase kind children) state) ++
        gained ((useWalk doc table source).runAll children
          (enterUse doc table source kind (.phrase kind children) state))
          ((useWalk doc table source).run (.phrase kind children) state) := by
  rw [emissions, if_pos hdescends, run_eq_leaveUse doc table source hdescends, List.append_assoc]

/-- A phrase settles its references if its children do. -/
theorem settles_phrase (hdescends : descendsForUses kind = true)
    (hchildren : ∀ front child back, children = front ++ child :: back →
      SettlesIn doc table source child ((useWalk doc table source).runAll front
        (enterUse doc table source kind (.phrase kind children) state))) :
    SettlesIn doc table source (.phrase kind children) state := by
  have hkept := references_prefix_enter doc table source hdescends children state
  have hinside := settles_inside hdescends hchildren
  obtain ⟨parts, hhanded⟩ := exists_handedAll doc table source children
    (enterUse doc table source kind (.phrase kind children) state)
  rw [SettlesIn, emissions_phrase hdescends]
  by_cases hretyped : retypes kind = true ∧ (Frame.mk kind parts).target?.isSome = true
  · obtain ⟨hretypes, hsome⟩ := hretyped
    obtain ⟨⟨part, name⟩, hpart⟩ := Option.isSome_iff_exists.1 hsome
    obtain ⟨hfirst, hphrase, -⟩ := Frame.target?_eq_some.1 hpart
    obtain ⟨earlier, occurrence, later, leaf, htarget, -⟩ :=
      hhanded.exists_targetIn hretypes hfirst hphrase
    obtain ⟨type, hpatched⟩ := exists_patched doc table source hretypes htarget state
    have hnone : gained ((useWalk doc table source).runAll children
        (enterUse doc table source kind (.phrase kind children) state))
        ((useWalk doc table source).run (.phrase kind children) state) = [] := by
      rw [gained, hpatched.references_after]
      exact List.drop_eq_nil_of_le (Nat.le_of_eq (List.length_modify _ _ _))
    rw [hnone, List.append_nil, hpatched.references_after]
    obtain ⟨front, hfront⟩ := exists_handedAll doc table source earlier
      (enterUse doc table source kind (.phrase kind children) state)
    refine hinside.modify (hkept.trans hfront.grows.references_grow).length_le
      hpatched.getElem?_references
      (not_retypedAmong_target htarget hchildren) fun place mention given => ?_
    rw [retypedIn_phrase_iff hdescends, retypedAt_iff hretypes htarget rfl hpatched.known]
  · have hnone (hretypes : retypes kind = true) : (Frame.mk kind parts).target? = none :=
      Option.not_isSome_iff_eq_none.1 fun hsome => hretyped ⟨hretypes, hsome⟩
    have hgrown := @references_prefix_leave doc source kind children state parts _
      (hhanded.frames hdescends) hnone
    have hnever : ∀ place mention type,
        ¬ RetypedAt doc table source (.phrase kind children) state place mention type := by
      rintro place mention type ⟨hretypes, htarget, -⟩
      refine hretyped ⟨hretypes, ?_⟩
      rw [hhanded.target?_eq_some hretypes htarget]
      rfl
    rw [← run_eq_leaveUse doc table source hdescends] at hgrown
    exact hinside.append (Settles.of_extended hgrown hnever) fun place mention type =>
      retypedIn_phrase_iff hdescends

end

variable (doc table source) in
/-- Whatever the walk goes through, only the references that are named get another type. -/
theorem useWalk_inducts_settles : (useWalk doc table source).Inducts
    (SettlesIn doc table source)
    fun trees state => ∀ earlier tree later, trees = earlier ++ tree :: later →
      SettlesIn doc table source tree ((useWalk doc table source).runAll earlier state) := by
  refine Walk.Inducts.of_children (fun leaf state => ?_) (fun kind children state hpasses => ?_)
    fun kind children state hdescends hchildren => settles_phrase hdescends hchildren
  · rw [SettlesIn, emissions, Walk.run_token]
    exact Settles.of_extended (grows_useToken leaf state).references_grow
      fun _ _ _ => not_retypedIn_token leaf
  · obtain ⟨parts, hhanded⟩ := exists_handedBy doc table source (.phrase kind children) state
    have hgrows := hhanded.grows
    rw [Walk.run_of_passes hpasses] at hgrows
    have hnot : ¬ descendsForUses kind = true := Bool.eq_false_iff.1 hpasses
    rw [SettlesIn, emissions, if_neg hnot, List.append_nil, Walk.run_of_passes hpasses]
    exact Settles.of_extended hgrows.references_grow fun _ _ _ => not_retypedIn_passed hpasses

/-- No scope is open in the end, so the references of a document are those of the last state. -/
theorem references_ofDocument (doc : Document) (table : SymbolTable) (source : SymbolSource) :
    (ReferenceTable.ofDocument doc table source).references =
      ((useWalk doc table source).run doc.tree (UseState.start doc)).references := by
  obtain ⟨parts, hhanded⟩ := exists_handedBy doc table source doc.tree (UseState.start doc)
  have houter : ((useWalk doc table source).run doc.tree (UseState.start doc)).outer = [] :=
    hhanded.grows.outer
  rw [ReferenceTable.references, ReferenceTable.ofDocument, ReferenceTable.new]
  dsimp only
  rw [UseState.closeScopes, UseState.references_eq, houter, allReferences_eq]
  rfl

end Reading

open Reading in
/-- Wherever a phrase is left that gives a type to its first operand, a plain
variable, the place that it patches is in the scope then on top, holds the
reference that was emitted for this very occurrence, and gets the type that is
recorded for the variable.  In the end the references are those that were emitted,
with the types they were emitted with, but for these mentions, which have the
types that their phrases have recorded. -/
theorem ReferenceTable.patches_hit_targets (doc : Document) (table : SymbolTable)
    (source : SymbolSource) :
    let walk := useWalk doc table source
    let emitted := emissions doc table source doc.tree (UseState.start doc)
    let references := (ofDocument doc table source).references
    (∀ kind children before frame rest target name, retypes kind = true →
      let entered := walk.enter kind (.phrase kind children) before
      let inside := walk.runAll children entered
      let after := walk.run (.phrase kind children) before
      inside.frames = frame :: rest → frame.first? = some target →
      target.plainVariable? = some name →
      ∃ earlier occurrence later leaf, TargetIn children earlier occurrence later leaf ∧
        doc.tokenText leaf = name ∧
        let arrived := walk.runAll earlier entered
        let mention := mentionOf doc leaf arrived
        target.reference = some arrived.nextPlace ∧
        inside.scope.children[arrived.nextPlace]? = some (.reference mention) ∧
        after.scope.children[arrived.nextPlace]? =
          some (.reference { mention with type := after.varTypes.getType name })) ∧
    references.length = emitted.length ∧
    ∀ place,
      (∀ mention type,
        RetypedIn doc table source doc.tree (UseState.start doc) place mention type →
        emitted[place]? = some mention ∧
          references[place]? = some { mention with type := type }) ∧
      ((∀ mention type,
        ¬ RetypedIn doc table source doc.tree (UseState.start doc) place mention type) →
        references[place]? = emitted[place]?) := by
  intro walk emitted references
  have hsettles := (useWalk_inducts_settles doc table source).tree doc.tree (UseState.start doc)
  rw [SettlesIn, ← references_ofDocument] at hsettles
  refine ⟨?_, ?_, fun place => ⟨fun mention type => hsettles.changed, hsettles.same⟩⟩
  · intro kind children before frame rest target name hretypes entered inside after hframes hfirst
      hname
    obtain ⟨parts, hhanded⟩ := exists_handedAll doc table source children entered
    have hsame := hframes.symm.trans (hhanded.frames (descends_of_retypes hretypes))
    cases hsame
    obtain ⟨hphrase, hnamed⟩ := plainVariable?_eq_some.1 hname
    obtain ⟨earlier, occurrence, later, leaf, htarget, rfl⟩ :=
      hhanded.exists_targetIn hretypes hfirst hphrase
    obtain ⟨type, hpatched⟩ := exists_patched doc table source hretypes htarget before
    cases hnamed
    refine ⟨earlier, occurrence, later, leaf, htarget, rfl, rfl, hpatched.getElem?_inside, ?_⟩
    have hafter := hpatched.getElem?_after
    rw [← hpatched.known] at hafter
    exact hafter
  · have hlength := hsettles.length_eq
    rwa [show (UseState.start doc).references = [] from rfl, List.length_nil, Nat.zero_add]
      at hlength

/-- A closure that assigns to a variable of its own stands between the mention of
a variable and the end of its assignment. -/
def closureDocument : Document :=
  Snippet.document "a" "<?php $a = function() \x7b $b = $a; $a = 1; \x7d; $a;"
    [Snippet.expressionStatement
      (Snippet.assignment (Snippet.variableUse "$a")
        (Snippet.closure false [] []
          [Snippet.expressionStatement
            (Snippet.assignment (Snippet.variableUse "$b") (Snippet.variableUse "$a")),
          Snippet.expressionStatement
            (Snippet.assignment (Snippet.variableUse "$a") (Snippet.integerLiteral "1"))])),
      Snippet.expressionStatement (Snippet.variableUse "$a")]

example :
    (Reading.emissions closureDocument (SymbolTable.ofDocument closureDocument) .unknown
        closureDocument.tree (Reading.UseState.start closureDocument)).map (·.type) =
      ["", "", "", "", "Closure"] ∧
    (ReferenceTable.ofDocument closureDocument (SymbolTable.ofDocument closureDocument)
        .unknown).references.map (fun reference => (reference.name, reference.type)) =
      [("$a", "Closure"), ("$b", ""), ("$a", ""), ("$a", "int"), ("$a", "Closure")] := by
  decide +kernel

end SymbolIndex
