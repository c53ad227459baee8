import SymbolIndex.Proofs.KeyedList
import SymbolIndex.Proofs.TypeExpr.Union
import SymbolIndex.Proofs.VariableTable.Levels

/-!
# Conditionals in a variable table

A conditional opens a branch for each of its arms and unites what they record
when it ends.  Whatever happens in the arms, it only changes what the innermost
level records: that is united with the records of the arms.  So a variable that
is recorded there keeps the types it could have.  One that is recorded further
out does not, as the record that the arms leave hides it.
-/

namespace SymbolIndex

open TypeExpr

/-! ## Maps of types -/

namespace TypeMap

/-- Unites several maps with one. -/
def uniteAll (types : TypeMap) (branches : List TypeMap) : TypeMap :=
  branches.foldl (fun types branch => branch.foldl unite types) types

/-- Maps are united entry by entry. -/
theorem uniteAll_induction {Q : TypeMap → Prop} {types : TypeMap} {branches : List TypeMap}
    (htypes : Q types)
    (hunite : ∀ branch ∈ branches, ∀ entry ∈ branch, ∀ known, Q known → Q (unite known entry)) :
    Q (types.uniteAll branches) := by
  have hbranch : ∀ branch ∈ branches, ∀ united, Q united → Q (branch.foldl unite united) :=
    fun branch hmem united hunited => List.foldlRecOn (motive := Q) branch unite hunited
      fun known hknown entry hentry => hunite branch hmem entry hentry known hknown
  exact List.foldlRecOn (motive := Q) branches _ htypes
    fun united hunited branch hmem => hbranch branch hmem united hunited

theorem value?_unite_of_ne (types : TypeMap) {entry : String × String} {name : String}
    (hne : entry.1 ≠ name) : (types.unite entry).value? name = types.value? name := by
  rw [unite]
  split
  · exact KeyedList.value?_put_of_ne _ _ hne.symm
  · exact KeyedList.value?_put_of_ne _ _ hne.symm

/-- What no branch records stays as it is. -/
theorem value?_uniteAll_of_ne {types : TypeMap} {branches : List TypeMap} {name : String}
    (hother : ∀ branch ∈ branches, ∀ entry ∈ branch, entry.1 ≠ name) :
    (types.uniteAll branches).value? name = types.value? name := by
  apply @uniteAll_induction fun united => united.value? name = types.value? name
  · rfl
  · intro branch hbranch entry hentry known hknown
    rw [value?_unite_of_ne known (hother branch hbranch entry hentry), hknown]

/-- What holds of two entries of one name holds of their union. -/
def KeptByMerge (P : String × String → Prop) : Prop :=
  ∀ name left right, P (name, left) → P (name, right) → P (name, merge left right)

theorem keptByMerge_closed : KeptByMerge fun entry => Closed entry.2 :=
  fun _ _ _ => closed_merge

theorem keptByMerge_ne (name : String) : KeptByMerge fun entry => entry.1 ≠ name :=
  fun _ _ _ hleft _ => hleft

variable {P : String × String → Prop}

/-- What holds of two maps' entries holds of their union's. -/
theorem forall_unite (hmerge : KeptByMerge P) {types : TypeMap} {entry : String × String}
    (htypes : ∀ other ∈ types, P other) (hentry : P entry) :
    ∀ other ∈ types.unite entry, P other := by
  intro other hother
  rw [unite] at hother
  split at hother
  · rename_i known hknown
    rcases KeyedList.mem_put hother with rfl | hmem
    · exact hmerge _ _ _ (htypes _ (KeyedList.mem_of_value? hknown)) hentry
    · exact htypes other hmem
  · rcases KeyedList.mem_put hother with rfl | hmem
    · exact hentry
    · exact htypes other hmem

/-- What holds of the entries of all branches holds of those of the union. -/
theorem forall_uniteAll (hmerge : KeptByMerge P) {types : TypeMap} {branches : List TypeMap}
    (htypes : ∀ entry ∈ types, P entry)
    (hbranches : ∀ branch ∈ branches, ∀ entry ∈ branch, P entry) :
    ∀ entry ∈ types.uniteAll branches, P entry := by
  apply @uniteAll_induction fun united => ∀ entry ∈ united, P entry
  · exact htypes
  · intro branch hbranch entry hentry known hknown
    exact forall_unite hmerge hknown (hbranches branch hbranch entry hentry)

/-- The types of a map, whose parentheses all close, as a part of another. -/
structure Widened (before after : TypeMap) : Prop where
  closed : ∀ entry ∈ after, Closed entry.2
  wider : ∀ name type, before.value? name = some type →
    ∃ wide, after.value? name = some wide ∧ ∀ atom ∈ atoms type, atom ∈ atoms wide

theorem Widened.refl {types : TypeMap} (hclosed : ∀ entry ∈ types, Closed entry.2) :
    types.Widened types where
  closed := hclosed
  wider _ type hknown := ⟨type, hknown, fun _ hmem => hmem⟩

/-- A map that is part of another stays so with one more entry. -/
theorem Widened.unite {before types : TypeMap} (hwidened : before.Widened types)
    {entry : String × String} (hentry : Closed entry.2) : before.Widened (types.unite entry) where
  closed := forall_unite keptByMerge_closed hwidened.closed hentry
  wider name type hknown := by
    obtain ⟨wide, hwide, hatoms⟩ := hwidened.wider name type hknown
    by_cases hname : entry.1 = name
    · subst hname
      refine ⟨merge wide entry.2, ?_, fun atom hmem => ?_⟩
      · rw [TypeMap.unite, hwide]
        exact KeyedList.value?_put_self _ _ _
      · have hclosed := hwidened.closed _ (KeyedList.mem_of_value? hwide)
        exact (mem_atoms_merge hclosed hentry).2 (Or.inl (hatoms atom hmem))
    · exact ⟨wide, (value?_unite_of_ne types hname).trans hwide, hatoms⟩

/-- A map is part of its union with any branches. -/
theorem widened_uniteAll {types : TypeMap} {branches : List TypeMap}
    (hclosed : ∀ entry ∈ types, Closed entry.2)
    (hbranches : ∀ branch ∈ branches, ∀ entry ∈ branch, Closed entry.2) :
    types.Widened (types.uniteAll branches) :=
  uniteAll_induction (Widened.refl hclosed)
    fun branch hbranch entry hentry _ hknown => hknown.unite (hbranches branch hbranch entry hentry)

end TypeMap

namespace VariableTable

/-! ## Steps -/

/-- What happens to a table while an arm of a conditional is read. -/
inductive Step where
  | assign (name type : String)
  | conditional (arms : List (List Step))
  | function (carried : List String) (body : List Step)

namespace Step

mutual

def run : Step → VariableTable → VariableTable
  | assign name type, table => table.setType name type
  | conditional arms, table => (runArms arms table).uniteBranches
  | function carried body, table => (runAll body (table.openScope carried)).closeScope

def runAll : List Step → VariableTable → VariableTable
  | [], table => table
  | step :: rest, table => runAll rest (run step table)

def runArms : List (List Step) → VariableTable → VariableTable
  | [], table => table
  | arm :: rest, table => runArms rest (runAll arm table.openBranch).closeBranch

end

mutual

/-- What a step makes of the types that the innermost level records. -/
def record : Step → TypeMap → TypeMap
  | assign name type, types => types.put name type
  | conditional arms, types => types.uniteAll (recordsOfArms arms)
  | function _ _, types => types

def recordAll : List Step → TypeMap → TypeMap
  | [], types => types
  | step :: rest, types => recordAll rest (record step types)

/-- What each arm records in its branch. -/
def recordsOfArms : List (List Step) → List TypeMap
  | [] => []
  | arm :: rest => recordAll arm [] :: recordsOfArms rest

end

mutual

/-- The assignments of a step that are not inside a function. -/
def assignments : Step → List (String × String)
  | assign name type => [(name, type)]
  | conditional arms => assignmentsInArms arms
  | function _ _ => []

def assignmentsInAll : List Step → List (String × String)
  | [] => []
  | step :: rest => assignments step ++ assignmentsInAll rest

def assignmentsInArms : List (List Step) → List (String × String)
  | [] => []
  | arm :: rest => assignmentsInAll arm ++ assignmentsInArms rest

end

end Step

/-- The table with other types in its innermost level. -/
def withTypes (table : VariableTable) (types : TypeMap) : VariableTable :=
  { table with top := { table.top with types := types } }

namespace Step

/-! ### What a step changes -/

mutual

/-- Where no branch is parked, a step changes the types of the innermost level
only. -/
theorem run_eq : (step : Step) → {table : VariableTable} → table.top.parked = [] →
    step.run table = table.withTypes (step.record table.top.types)
  | assign name type, table, _ => by
      rw [run, record]
      rfl
  | conditional arms, table, hparked => by
      rw [run, runArms_eq arms, record, uniteBranches, hparked]
      obtain ⟨⟨isScope, types, parked⟩, below⟩ := table
      obtain rfl : parked = [] := hparked
      rfl
  | function carried body, table, _ => by
      rw [run, runAll_eq body (by rfl), record]
      rfl

/-- Steps change the types of the innermost level only. -/
theorem runAll_eq : (steps : List Step) → {table : VariableTable} → table.top.parked = [] →
    runAll steps table = table.withTypes (recordAll steps table.top.types)
  | [], table, _ => by
      rw [runAll, recordAll]
      rfl
  | step :: rest, table, hparked => by
      have hnext : (table.withTypes (step.record table.top.types)).top.parked = [] := hparked
      rw [runAll, recordAll, run_eq step hparked, runAll_eq rest hnext]
      rfl

/-- Arms are parked with what they record, whatever the arms before them do. -/
theorem runArms_eq : (arms : List (List Step)) → {table : VariableTable} →
    runArms arms table =
      { table with top := { table.top with parked := table.top.parked ++ recordsOfArms arms } }
  | [], table => by
      rw [runArms, recordsOfArms, List.append_nil]
  | arm :: rest, table => by
      have harm : (runAll arm table.openBranch).closeBranch =
          { table with
            top := { table.top with parked := table.top.parked ++ [recordAll arm []] } } := by
        rw [runAll_eq arm (by rfl)]
        rfl
      rw [runArms, harm, runArms_eq rest, recordsOfArms, List.append_assoc]
      rfl

end

mutual

/-- What a step records comes from what was recorded before and from what it
assigns, united in some way. -/
theorem forall_record {P : String × String → Prop}
    (hmerge : TypeMap.KeptByMerge P) :
    (step : Step) → {types : TypeMap} → (∀ entry ∈ types, P entry) →
    (∀ entry ∈ step.assignments, P entry) → ∀ entry ∈ step.record types, P entry
  | assign name type, types, htypes, hassigned => by
      rw [record]
      intro entry hmem
      rcases KeyedList.mem_put hmem with rfl | hbefore
      · exact hassigned _ (List.mem_singleton.2 rfl)
      · exact htypes entry hbefore
  | conditional arms, types, htypes, hassigned => by
      rw [record]
      exact TypeMap.forall_uniteAll hmerge htypes (forall_recordsOfArms hmerge arms hassigned)
  | function _ _, types, htypes, _ => by
      rw [record]
      exact htypes

/-- What holds of the types there and of all that are assigned holds of what is recorded. -/
theorem forall_recordAll {P : String × String → Prop}
    (hmerge : TypeMap.KeptByMerge P) :
    (steps : List Step) → {types : TypeMap} → (∀ entry ∈ types, P entry) →
    (∀ entry ∈ assignmentsInAll steps, P entry) → ∀ entry ∈ recordAll steps types, P entry
  | [], types, htypes, _ => by
      rw [recordAll]
      exact htypes
  | step :: rest, types, htypes, hassigned => by
      obtain ⟨hstep, hrest⟩ := List.forall_mem_append.1 hassigned
      rw [recordAll]
      exact forall_recordAll hmerge rest (forall_record hmerge step htypes hstep) hrest

theorem forall_recordsOfArms {P : String × String → Prop}
    (hmerge : TypeMap.KeptByMerge P) :
    (arms : List (List Step)) → (∀ entry ∈ assignmentsInArms arms, P entry) →
    ∀ branch ∈ recordsOfArms arms, ∀ entry ∈ branch, P entry
  | [], _ => fun _ hmem => absurd hmem List.not_mem_nil
  | arm :: rest, hassigned => by
      obtain ⟨harm, hrest⟩ := List.forall_mem_append.1 hassigned
      rw [recordsOfArms, List.forall_mem_cons]
      exact ⟨forall_recordAll hmerge arm (fun _ hmem => absurd hmem List.not_mem_nil) harm,
        forall_recordsOfArms hmerge rest hrest⟩

end

end Step

/-! ## Conditionals -/

/-- With other types a level answers from them, and otherwise as before. -/
theorem getType_withTypes (table : VariableTable) (types : TypeMap) (name : String) :
    (table.withTypes types).getType name =
      match types.value? name with
      | some type => type
      | none => if table.top.isScope then "" else lookup name table.below :=
  rfl

/-- A conditional never loses what a variable could already be, if it is
recorded in the innermost level or could be nothing, or if no arm assigns it. -/
theorem atoms_getType_conditional (table : VariableTable) (arms : List (List Step))
    (name : String) (hparked : table.top.parked = [])
    (htable : ∀ entry ∈ table.top.types, Closed entry.2)
    (harms : ∀ entry ∈ (Step.conditional arms).assignments, Closed entry.2)
    (hheld : table.top.isScope = true ∨ (table.top.types.value? name).isSome = true ∨
      ∀ entry ∈ (Step.conditional arms).assignments, entry.1 ≠ name) :
    ∀ atom ∈ atoms (table.getType name),
      atom ∈ atoms (((Step.conditional arms).run table).getType name) := by
  have hbranches := Step.forall_recordsOfArms TypeMap.keptByMerge_closed arms harms
  have hwidened := TypeMap.widened_uniteAll htable hbranches
  have hbefore : table.getType name = (table.withTypes table.top.types).getType name := rfl
  rw [Step.run_eq _ hparked, Step.record, hbefore, getType_withTypes, getType_withTypes]
  cases hknown : table.top.types.value? name with
  | some type =>
      obtain ⟨wide, hwide, hatoms⟩ := hwidened.wider name type hknown
      rw [hwide]
      exact hatoms
  | none =>
      rcases hheld with hscope | hrecorded | hunassigned
      · -- Nothing is known of the variable before.
        rw [if_pos hscope, atoms_empty]
        exact fun _ hmem => absurd hmem List.not_mem_nil
      · rw [hknown] at hrecorded
        cases hrecorded
      · have hother := Step.forall_recordsOfArms (TypeMap.keptByMerge_ne name) arms hunassigned
        rw [TypeMap.value?_uniteAll_of_ne hother, hknown]
        exact fun _ hmem => hmem

/-- A branch of a conditional in which a variable is recorded. -/
def recordingBranch : VariableTable :=
  new.openBranch.setType "$v" "int"

/-- The branch had a type for `$v`, which is part of the one behind the conditional. -/
theorem atoms_getType_conditional_recorded :
    recordingBranch.top.parked = [] ∧
    (∀ entry ∈ recordingBranch.top.types, Closed entry.2) ∧
    (∀ entry ∈ (Step.conditional [[.assign "$v" "string"], []]).assignments, Closed entry.2) ∧
    (recordingBranch.top.types.value? "$v").isSome = true ∧
    ∀ atom ∈ atoms (recordingBranch.getType "$v"),
      atom ∈ atoms (((Step.conditional [[.assign "$v" "string"], []]).run
        recordingBranch).getType "$v") := by
  have htable : ∀ entry ∈ recordingBranch.top.types, Closed entry.2 := by decide
  have harms : ∀ entry ∈ (Step.conditional [[.assign "$v" "string"], []]).assignments,
      Closed entry.2 := by decide
  have hrecorded : (recordingBranch.top.types.value? "$v").isSome = true := by decide
  exact ⟨rfl, htable, harms, hrecorded,
    atoms_getType_conditional recordingBranch _ "$v" rfl htable harms
      (Or.inr (Or.inl hrecorded))⟩

/-- A variable that is recorded around a branch loses its type to a conditional
inside the branch. -/
theorem conditional_hides_outer_type :
    let table := (new.setType "$v" "int").openBranch
    table.top.parked = [] ∧ (∀ set ∈ table.levels, ∀ entry ∈ set.types, Closed entry.2) ∧
      "int" ∈ atoms (table.getType "$v") ∧
      "int" ∉ atoms (((Step.conditional [[.assign "$v" "string"]]).run table).getType "$v") := by
  decide +kernel

end VariableTable

end SymbolIndex
