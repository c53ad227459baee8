import SymbolIndex.Proofs.Reading.Edits
import SymbolIndex.Proofs.Reading.Walk

/-!
# What is emitted

All that a step of the walk over uses does to the scopes is to emit references, to
give another type to one, and to open and close a scope; a property that outlasts
these outlasts every step.  References of variables are emitted at variable tokens
and at variable phrases only.  So a property of references holds of the whole table
if it does not depend on types, holds of everything in the document that is no
variable, and holds of what is located at the variables to which the walk comes.
-/

namespace SymbolIndex

namespace Scope

theorem allReferencesIn_append (left right : List ScopeChild) :
    allReferencesIn (left ++ right) = allReferencesIn left ++ allReferencesIn right := by
  induction left with
  | nil => rfl
  | cons child rest ih =>
      cases child with
      | reference reference => simp [allReferencesIn, ih]
      | scope inner => simp [allReferencesIn, ih]

theorem allReferences_eq (scope : Scope) :
    scope.allReferences = allReferencesIn scope.children := by
  cases scope
  rfl

end Scope

namespace Reading

open Scope

/-- The property does not depend on types and holds of all in the document that
is no variable. -/
structure Admits (doc : Document) (P : Reference → Prop) : Prop where
  typed : ∀ reference type, P reference → P { reference with type := type }
  plain : ∀ reference, reference.kind.isVariable = false → reference.location.uri = doc.uri →
    P reference

/-- All references in the scopes of the walk have a property. -/
def UseState.Every (P : Reference → Prop) (state : UseState) : Prop :=
  ∀ scope ∈ state.scope :: state.outer, ∀ reference ∈ allReferencesIn scope.children, P reference

/-- The property of states outlasts whatever the walk does to the scopes, as long as only references
are emitted of which `P` holds. -/
structure Outlasts (P : Reference → Prop) (Q : UseState → Prop) : Prop where
  congr : ∀ {state other : UseState}, Q state → other.scope = state.scope →
    other.outer = state.outer → Q other
  emit : ∀ {state : UseState} {reference : Reference}, Q state → P reference →
    Q (state.emit reference)
  patchType : ∀ {state : UseState}, Q state → ∀ place type, Q (state.patchType place type)
  openScope : ∀ {state : UseState}, Q state → ∀ location, Q (state.openScope location)
  closeScope : ∀ {state : UseState}, Q state → Q state.closeScope

/-- The property holds of what is located at a token. -/
def HoldsAt (doc : Document) (P : Reference → Prop) (leaf : Token) : Prop :=
  ∀ reference, reference.location = doc.location (doc.tokenRange leaf) → P reference

namespace UseState.Every

variable {doc : Document} {P : Reference → Prop} {state : UseState}

theorem start (P : Reference → Prop) (doc : Document) : (UseState.start doc).Every P :=
  List.forall_mem_singleton.2 fun _ hmem => absurd hmem List.not_mem_nil

/-- A new type of one reference makes no difference to a property that does not depend on types.
-/
theorem forall_mem_modify (hadmits : Admits doc P) (type : String) {children : List ScopeChild}
    (hchildren : ∀ reference ∈ allReferencesIn children, P reference) (place : Nat) :
    ∀ reference ∈ allReferencesIn (children.modify place (withType type)), P reference := by
  induction children generalizing place with
  | nil =>
      rw [List.modify_nil]
      exact hchildren
  | cons child rest ih =>
      cases place with
      | zero =>
          rw [List.modify_zero_cons]
          cases child with
          | scope inner => exact hchildren
          | reference first =>
              obtain ⟨hfirst, hrest⟩ := List.forall_mem_cons.1 hchildren
              exact List.forall_mem_cons.2 ⟨hadmits.typed first type hfirst, hrest⟩
      | succ place =>
          rw [List.modify_succ_cons]
          cases child with
          | scope inner =>
              obtain ⟨hinner, hrest⟩ := List.forall_mem_append.1 hchildren
              exact List.forall_mem_append.2 ⟨hinner, ih hrest place⟩
          | reference first =>
              obtain ⟨hfirst, hrest⟩ := List.forall_mem_cons.1 hchildren
              exact List.forall_mem_cons.2 ⟨hfirst, ih hrest place⟩

/-- A property of all references outlasts the walk, if it holds of all that may be emitted. -/
theorem outlasts (hadmits : Admits doc P) : Outlasts P (UseState.Every P) where
  congr hstate hscope houter := by rwa [UseState.Every, hscope, houter]
  emit hstate hreference := by
    obtain ⟨hscope, houter⟩ := List.forall_mem_cons.1 hstate
    refine List.forall_mem_cons.2 ⟨?_, houter⟩
    rw [UseState.emit, allReferencesIn_append]
    exact List.forall_mem_append.2 ⟨hscope, List.forall_mem_singleton.2 hreference⟩
  patchType hstate place type := by
    cases place with
    | none => exact hstate
    | some place =>
      obtain ⟨hscope, houter⟩ := List.forall_mem_cons.1 hstate
      exact List.forall_mem_cons.2 ⟨forall_mem_modify hadmits type hscope place, houter⟩
  openScope hstate _ := List.forall_mem_cons.2 ⟨fun _ hmem => absurd hmem List.not_mem_nil, hstate⟩
  closeScope hstate := by
    rw [UseState.closeScope]
    split
    · exact hstate
    · rename_i around rest houter
      rw [UseState.Every, houter, List.forall_mem_cons, List.forall_mem_cons] at hstate
      obtain ⟨hscope, haround, hrest⟩ := hstate
      refine List.forall_mem_cons.2 ⟨?_, hrest⟩
      rw [allReferencesIn_append, allReferencesIn, allReferences_eq, allReferencesIn,
        List.append_nil]
      exact List.forall_mem_append.2 ⟨haround, hscope⟩

end UseState.Every

/-! ## Steps of the walk -/

namespace Outlasts

variable {doc : Document} {P : Reference → Prop} {Q : UseState → Prop} {state : UseState}
  (hlasts : Outlasts P Q)

include hlasts

theorem pushPart (hstate : Q state) (part : Part) : Q (state.pushPart part) := by
  rw [UseState.pushPart]
  split
  · exact hstate
  · exact hlasts.congr hstate rfl rfl

theorem closeScopes (hstate : Q state) : Q state.closeScopes := by
  rw [UseState.closeScopes]
  generalize state.outer = outer
  induction outer generalizing state with
  | nil => exact hstate
  | cons scope rest ih => exact ih (hlasts.closeScope hstate)

/-- The property outlasts edits that emit what it holds of. -/
theorem edits {allowed : Allowed} {before : UseState} {parts : List Part}
    (hedits : before.Edits allowed parts state)
    (hemits : ∀ reference, allowed.emits reference → P reference) (hbefore : Q before) :
    Q state := by
  induction hedits with
  | refl => exact hbefore
  | emit _ hreference ih => exact hlasts.emit ih (hemits _ hreference)
  | pushPart _ _ ih => exact hlasts.pushPart ih _
  | patchType _ _ _ ih => exact hlasts.patchType ih _ _
  -- The others leave the scopes as they are.
  | setVariable _ _ _ ih | setLevels _ _ _ ih | setPending _ _ ih | setResolver _ _ ih =>
      exact hlasts.congr ih rfl rfl

/-! ### Whole steps -/

variable (hadmits : Admits doc P)
include hadmits

theorem token (hstate : Q state) (table : SymbolTable) {leaf : Token}
    (hleaf : leaf.kind = .variableName → HoldsAt doc P leaf) :
    Q (useToken doc table leaf state) := by
  refine hlasts.edits (edits_useToken leaf state) (fun reference hemitted => ?_) hstate
  cases hvariable : reference.kind.isVariable with
  | true => exact hleaf (hemitted.named hvariable) reference hemitted.location
  | false => exact hadmits.plain reference hvariable (congrArg Location.uri hemitted.location)

theorem enterPlain (hstate : Q state) (table : SymbolTable) (source : SymbolSource)
    {kind : PhraseKind} {tree : Tree}
    (hleaf : kind = .simpleVariable →
      ∀ leaf, tree.childToken? .variableName = some leaf → HoldsAt doc P leaf) :
    Q (enterPlain doc table source kind tree state) := by
  have hemits : ∀ reference, EmittedIn doc kind tree reference → P reference := by
    intro reference hemitted
    cases hemitted with
    | self _ hkind hlocation | part _ _ _ hkind hlocation =>
        exact hadmits.plain reference hkind (congrArg Location.uri hlocation)
    | leaf leaf hphrase hchild hlocation => exact hleaf hphrase leaf hchild reference hlocation
  cases hopens : opensScope (.phrase kind tree.children) with
  | false =>
      obtain ⟨parts, hedits⟩ := @exists_edits_enterPlain doc table source kind tree hopens state
      exact hlasts.edits hedits hemits hstate
  | true =>
      obtain ⟨opened, hopened, hedits⟩ :=
        @exists_opened doc table source kind tree hopens state
      exact hlasts.edits hedits hemits
        (hlasts.congr (hlasts.openScope hstate _) hopened.scope hopened.outer)

/-- The property outlasts the entering of a phrase, if it holds of the variable there. -/
theorem enter (hstate : Q state) (table : SymbolTable) (source : SymbolSource)
    {kind : PhraseKind} {tree : Tree}
    (hleaf : kind = .simpleVariable →
      ∀ leaf, tree.childToken? .variableName = some leaf → HoldsAt doc P leaf) :
    Q (enterUse doc table source kind tree state) := by
  have hentered := hlasts.enterPlain hadmits hstate table source hleaf
  rw [enterUse]
  split
  · exact hlasts.congr hentered rfl rfl
  · exact hentered

theorem valueOf (hstate : Q state) (source : SymbolSource) (tree : Tree) (frame : Frame) :
    Q (valueOf doc source tree frame state).1 := by
  cases hopens : opensScope (.phrase frame.kind tree.children) with
  | false =>
      refine hlasts.edits (edits_valueOf hopens) (fun reference hemitted => ?_) hstate
      cases hemitted with
      | self _ hkind hlocation | member _ _ _ hkind hlocation =>
          exact hadmits.plain reference hkind (congrArg Location.uri hlocation)
  | true =>
      obtain ⟨hscope, houter, -⟩ := @closes_valueOf doc source tree frame state hopens
      exact hlasts.congr (hlasts.closeScope hstate) hscope houter

theorem leave (hstate : Q state) (source : SymbolSource) (tree : Tree) :
    Q (leaveUse doc source tree state) := by
  rw [leaveUse]
  split
  · exact hstate
  · rename_i frame rest hframes
    have hrest : Q ({ state with frames := rest } : UseState) := hlasts.congr hstate rfl rfl
    have hvalue := hlasts.valueOf hadmits hrest source tree frame
    split
    · rename_i hresult
      rwa [hresult] at hvalue
    · rename_i hresult
      rw [hresult] at hvalue
      exact hlasts.pushPart hvalue _

end Outlasts

/-- The walk comes to a token that stands for a variable: a variable token, or
the first one in a variable phrase. -/
inductive VisitsVariable (doc : Document) (table : SymbolTable) (source : SymbolSource)
    (leaf : Token) : Prop
  | token (before : UseState) (hkind : leaf.kind = .variableName)
      (hvisits : (useWalk doc table source).Visits doc.tree (UseState.start doc) (.token leaf)
        before)
  | phrase (children : List Tree) (before : UseState)
      (hleaf : (Tree.phrase .simpleVariable children).childToken? .variableName = some leaf)
      (hvisits : (useWalk doc table source).Visits doc.tree (UseState.start doc)
        (.phrase .simpleVariable children) before)

end Reading

/-- A property that does not depend on types holds of all references of a
document, if it holds of those that are no variables and of those at variables. -/
theorem ReferenceTable.forall_mem_references {doc : Document} {table : SymbolTable}
    {source : SymbolSource} {P : Reference → Prop} (hadmits : Reading.Admits doc P)
    (hvariables : ∀ leaf, Reading.VisitsVariable doc table source leaf →
      Reading.HoldsAt doc P leaf) :
    ∀ reference ∈ (ofDocument doc table source).references, P reference := by
  have hlasts := Reading.UseState.Every.outlasts hadmits
  have hrun : ((Reading.useWalk doc table source).run doc.tree
      (Reading.UseState.start doc)).Every P := by
    refine Walk.KeepsAt.run doc.tree _ ⟨?_, ?_, ?_⟩ (Reading.UseState.Every.start P doc)
    · exact fun leaf before hvisits hbefore => hlasts.token hadmits hbefore table fun hkind =>
        hvariables leaf (.token before hkind hvisits)
    · intro kind children before hvisits hbefore
      apply hlasts.enter hadmits hbefore table source
      rintro rfl leaf hleaf
      exact hvariables leaf (.phrase children before hleaf hvisits)
    · exact fun _ _ before _ hbefore => hlasts.leave hadmits hbefore source _
  intro reference hmem
  apply hlasts.closeScopes hrun _ List.mem_cons_self reference
  rwa [← Scope.allReferences_eq]

end SymbolIndex
