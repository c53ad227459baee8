import SymbolIndex.Proofs.Reading.Emissions
import SymbolIndex.Proofs.Reading.Written

/-!
# What is asked of other documents

The walk over uses asks its source for the types of names and members only, and whatever it asks
about it emits.  What was emitted stays, save for its type.  So the references of a document depend
on a source only through the types that it gives to these very references.
-/

namespace SymbolIndex

/-- A reference as it is looked up, before it has a type. -/
def Reference.untyped (reference : Reference) : Reference :=
  { reference with type := "" }

/-- A reference that is looked up has the same type from both sources. -/
def SymbolSource.TypesAlike (left right : SymbolSource) (reference : Reference) : Prop :=
  Reading.lookupType left reference.untyped = Reading.lookupType right reference.untyped

namespace Reading

open Scope

/-! ## What was emitted stays -/

/-- A reference is in a scope of the walk, with whatever type. -/
def UseState.Holds (reference : Reference) (state : UseState) : Prop :=
  ∃ scope ∈ state.scope :: state.outer,
    reference.untyped ∈ (allReferencesIn scope.children).map Reference.untyped

/-- A reference with another type is the same one without it. -/
theorem map_untyped_modify (children : List ScopeChild) (place : Nat) (type : String) :
    (allReferencesIn (children.modify place (UseState.withType type))).map Reference.untyped =
      (allReferencesIn children).map Reference.untyped := by
  induction children generalizing place with
  | nil => rw [List.modify_nil]
  | cons child rest ih =>
    cases place with
    | zero => cases child <;> rfl
    | succ place =>
      rw [List.modify_succ_cons]
      cases child <;> simp [allReferencesIn, ih]

namespace UseState.Holds

variable {reference : Reference} {state : UseState}

theorem emit_self (state : UseState) (reference : Reference) :
    (state.emit reference).Holds reference := by
  refine ⟨_, List.mem_cons_self, List.mem_map_of_mem ?_⟩
  rw [UseState.emit, allReferencesIn_append]
  exact List.mem_append_right _ List.mem_cons_self

/-- A reference that was emitted stays, whatever the walk does later. -/
theorem outlasts (reference : Reference) :
    Outlasts (fun _ => True) (UseState.Holds reference) where
  congr hholds hscope houter := by rwa [UseState.Holds, hscope, houter]
  emit := by
    rintro state emitted ⟨scope, hscope, hmem⟩ -
    rcases List.mem_cons.1 hscope with rfl | houter
    · refine ⟨_, List.mem_cons_self, ?_⟩
      rw [UseState.emit, allReferencesIn_append, List.map_append]
      exact List.mem_append_left _ hmem
    · exact ⟨scope, List.mem_cons_of_mem _ houter, hmem⟩
  patchType := by
    rintro state ⟨scope, hscope, hmem⟩ place type
    cases place with
    | none => exact ⟨scope, hscope, hmem⟩
    | some place =>
      rcases List.mem_cons.1 hscope with rfl | houter
      · refine ⟨_, List.mem_cons_self, ?_⟩
        rwa [UseState.patchType, map_untyped_modify]
      · exact ⟨scope, List.mem_cons_of_mem _ houter, hmem⟩
  openScope := by
    rintro state ⟨scope, hscope, hmem⟩ location
    exact ⟨scope, List.mem_cons_of_mem _ hscope, hmem⟩
  closeScope := by
    rintro state ⟨scope, hscope, hmem⟩
    rw [UseState.closeScope]
    split
    · exact ⟨scope, hscope, hmem⟩
    · rename_i around rest houter
      rw [houter] at hscope
      rcases List.mem_cons.1 hscope with rfl | hscope
      · refine ⟨_, List.mem_cons_self, ?_⟩
        rw [allReferencesIn_append, List.map_append, allReferencesIn, allReferences_eq,
          allReferencesIn, List.append_nil]
        exact List.mem_append_right _ hmem
      · rcases List.mem_cons.1 hscope with rfl | hrest
        · refine ⟨_, List.mem_cons_self, ?_⟩
          rw [allReferencesIn_append, List.map_append]
          exact List.mem_append_left _ hmem
        · exact ⟨scope, List.mem_cons_of_mem _ hrest, hmem⟩

end UseState.Holds

theorem admits_all (doc : Document) : Admits doc fun _ => True :=
  ⟨fun _ _ _ => trivial, fun _ _ _ => trivial⟩

/-! ## Sources that agree -/

/-- The sources give the same types to all references of the state. -/
def AgreeOn (left right : SymbolSource) (state : UseState) : Prop :=
  ∀ reference, state.Holds reference → left.TypesAlike right reference

section

variable {left right : SymbolSource} {doc : Document} {state : UseState}

/-- What a step keeps, it keeps the agreement on. -/
theorem AgreeOn.of_step {next : UseState} (hagree : AgreeOn left right next)
    (hkeeps : ∀ reference, state.Holds reference → next.Holds reference) :
    AgreeOn left right state :=
  fun reference hholds => hagree reference (hkeeps reference hholds)

/-- A name has the same type from two sources that agree on its reference. -/
theorem nameUse_eq_of_agreeOn {tree : Tree}
    (hagree : AgreeOn left right (nameUse doc left tree state)) :
    nameUse doc left tree state = nameUse doc right tree state := by
  rw [nameUse, nameUse]
  rw [nameUse] at hagree
  dsimp only at hagree ⊢
  split
  · rfl
  · rename_i hname
    rw [hname] at hagree
    dsimp only at hagree
    have hpushed := hagree.of_step fun reference hholds =>
      (UseState.Holds.outlasts reference).pushPart hholds _
    have htype := hpushed _ (UseState.Holds.emit_self _ _)
    rw [SymbolSource.TypesAlike] at htype
    simp only [Reference.untyped] at htype
    rw [htype]

/-- A member has the same type from two sources that agree on its reference. -/
theorem emitMember_eq_of_agreeOn {reference : Reference} (huntyped : reference.untyped = reference)
    (hagree : AgreeOn left right (emitMember left reference state).1) :
    emitMember left reference state = emitMember right reference state := by
  have htype : lookupType left reference = lookupType right reference := by
    have hemitted := hagree _ (UseState.Holds.emit_self _ _)
    rw [SymbolSource.TypesAlike] at hemitted
    rwa [← huntyped]
  rw [emitMember, emitMember, htype]

theorem memberAccess_eq_of_agreeOn {isCall : Bool} {frame : Frame}
    (hagree : AgreeOn left right (memberAccess doc left isCall frame state).1) :
    memberAccess doc left isCall frame state = memberAccess doc right isCall frame state := by
  rw [memberAccess, memberAccess]
  rw [memberAccess] at hagree
  split
  · rfl
  · rename_i member hmember
    rw [hmember] at hagree
    exact emitMember_eq_of_agreeOn rfl hagree

theorem scopedAccess_eq_of_agreeOn {kind : SymbolKind} {frame : Frame}
    (hagree : AgreeOn left right (scopedAccess doc left kind frame state).1) :
    scopedAccess doc left kind frame state = scopedAccess doc right kind frame state := by
  rw [scopedAccess, scopedAccess]
  rw [scopedAccess] at hagree
  split
  · rfl
  · rename_i member hmember
    rw [hmember] at hagree
    dsimp only at hagree
    split
    · rfl
    · rename_i hclass
      rw [if_neg hclass] at hagree
      exact emitMember_eq_of_agreeOn rfl hagree

theorem enterPlain_eq_of_agreeOn {table : SymbolTable} {kind : PhraseKind} {tree : Tree}
    (hagree : AgreeOn left right (enterPlain doc table left kind tree state)) :
    enterPlain doc table left kind tree state = enterPlain doc table right kind tree state := by
  cases kind
  case qualifiedName | fullyQualifiedName | relativeQualifiedName =>
    exact nameUse_eq_of_agreeOn hagree
  all_goals rfl

/-- Entering a phrase does the same with two sources that agree on what is emitted. -/
theorem enterUse_eq_of_agreeOn {table : SymbolTable} {kind : PhraseKind} {tree : Tree}
    (hagree : AgreeOn left right (enterUse doc table left kind tree state)) :
    enterUse doc table left kind tree state = enterUse doc table right kind tree state := by
  have hplain : AgreeOn left right (enterPlain doc table left kind tree state) := by
    apply hagree.of_step
    intro reference hholds
    rw [enterUse]
    split
    · exact (UseState.Holds.outlasts reference).congr hholds rfl rfl
    · exact hholds
  rw [enterUse, enterUse, enterPlain_eq_of_agreeOn hplain]

theorem valueOf_eq_of_agreeOn {tree : Tree} {frame : Frame}
    (hagree : AgreeOn left right (valueOf doc left tree frame state).1) :
    valueOf doc left tree frame state = valueOf doc right tree frame state := by
  unfold valueOf at hagree ⊢
  cases hkind : frame.kind
  case methodCallExpression | propertyAccessExpression =>
    rw [hkind] at hagree
    simp only [memberAccess_eq_of_agreeOn hagree]
  case scopedCallExpression | scopedPropertyAccessExpression | classConstantAccessExpression =>
    rw [hkind] at hagree
    simp only [scopedAccess_eq_of_agreeOn hagree]
  all_goals rfl

/-- Leaving a phrase does the same with two sources that agree on what is emitted. -/
theorem leaveUse_eq_of_agreeOn {tree : Tree}
    (hagree : AgreeOn left right (leaveUse doc left tree state)) :
    leaveUse doc left tree state = leaveUse doc right tree state := by
  rw [leaveUse, leaveUse]
  rw [leaveUse] at hagree
  split
  · rfl
  · rename_i frame rest hframes
    rw [hframes] at hagree
    dsimp only at hagree
    have hvalue : AgreeOn left right
        (valueOf doc left tree frame { state with frames := rest }).1 := by
      apply hagree.of_step
      intro reference hholds
      generalize valueOf doc left tree frame { state with frames := rest } = value at hholds ⊢
      obtain ⟨next, _ | part⟩ := value
      · exact hholds
      · exact (UseState.Holds.outlasts reference).pushPart hholds _
    rw [valueOf_eq_of_agreeOn hvalue]

end

/-- As long as the sources agree on all that was emitted, the walks are in the same state. -/
theorem lockstep_useWalk_of_agreeOn (doc : Document) (table : SymbolTable)
    (left right : SymbolSource) :
    (useWalk doc table left).Lockstep (useWalk doc table right)
      fun state other => AgreeOn left right state → state = other where
  descends := rfl
  -- All that was emitted before a step is there after it, so the sources agree on that, too.
  token leaf state other hstate hagree := by
    rw [hstate (hagree.of_step fun reference hholds =>
      (UseState.Holds.outlasts reference).token (admits_all doc) hholds table
        fun _ _ _ => trivial)]
    rfl
  enter kind tree state other hstate hagree := by
    rw [← hstate (hagree.of_step fun reference hholds =>
      (UseState.Holds.outlasts reference).enter (admits_all doc) hholds table left
        fun _ _ _ _ _ => trivial)]
    exact enterUse_eq_of_agreeOn hagree
  leave kind tree state other hstate hagree := by
    rw [← hstate (hagree.of_step fun reference hholds =>
      (UseState.Holds.outlasts reference).leave (admits_all doc) hholds left tree)]
    exact leaveUse_eq_of_agreeOn hagree

theorem UseState.outer_closeScopes (state : UseState) : state.closeScopes.outer = [] := by
  rw [closeScopes]
  generalize houter : state.outer = outer
  induction outer generalizing state with
  | nil => exact houter
  | cons scope rest ih =>
    apply ih
    simp only [closeScope, houter]

end Reading

open Reading in
/-- Sources that give the same types to the references of a document give the document the same
references. -/
theorem ReferenceTable.ofDocument_eq_of_typesAlike {doc : Document} {table : SymbolTable}
    {left right : SymbolSource}
    (halike : ∀ reference ∈ (ofDocument doc table left).references,
      left.TypesAlike right reference) :
    ofDocument doc table left = ofDocument doc table right := by
  have hrun := (lockstep_useWalk_of_agreeOn doc table left right).run doc.tree
    (UseState.start doc) (UseState.start doc) fun _ => rfl
  have hagree : AgreeOn left right ((useWalk doc table left).run doc.tree
      (UseState.start doc)) := by
    intro reference hholds
    obtain ⟨scope, hscope, hmem⟩ := (UseState.Holds.outlasts reference).closeScopes hholds
    rw [UseState.outer_closeScopes] at hscope
    obtain rfl := List.mem_singleton.1 hscope
    obtain ⟨emitted, hemitted, huntyped⟩ := List.mem_map.1 hmem
    rw [← Scope.allReferences_eq] at hemitted
    have htype := halike emitted hemitted
    rwa [SymbolSource.TypesAlike, huntyped] at htype
  simp only [ofDocument, hrun hagree]

end SymbolIndex
