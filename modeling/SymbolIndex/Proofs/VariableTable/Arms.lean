import SymbolIndex.Proofs.VariableTable.Conditional

/-!
# Arms of a conditional

Every arm of a conditional starts with the types from before it, whatever the
arms before assigned, and all of them count in the end: what a variable could be
at the end of an arm that assigns it, it can be after the conditional.
-/

namespace SymbolIndex

open TypeExpr

/-! ## Maps of types -/

namespace TypeMap

/-- The variables that have a type. -/
def names (types : TypeMap) : List String :=
  types.map (·.1)

theorem names_append (types others : TypeMap) :
    names (types ++ others) = names types ++ names others :=
  List.map_append

theorem mem_names_put {types : TypeMap} {key type name : String} :
    name ∈ names (KeyedList.put key type types) ↔ name ∈ names types ∨ name = key := by
  rw [names, KeyedList.map_fst_put]
  split
  · rename_i hold
    constructor
    · exact Or.inl
    · rintro (hmem | rfl)
      · exact hmem
      · exact hold
  · rw [List.mem_append, List.mem_singleton]
    rfl

theorem mem_names_unite {types : TypeMap} {entry : String × String} {name : String} :
    name ∈ names (types.unite entry) ↔ name ∈ names types ∨ name = entry.1 := by
  rw [unite]
  split
  · exact mem_names_put
  · exact mem_names_put

theorem mem_names_foldl_unite {types branch : TypeMap} {name : String} :
    name ∈ names (branch.foldl unite types) ↔ name ∈ names types ∨ name ∈ names branch := by
  induction branch generalizing types with
  | nil => simp [names]
  | cons entry rest ih =>
      rw [List.foldl_cons, ih, mem_names_unite, or_assoc, names, names, names, List.map_cons,
        List.mem_cons]

/-- Uniting with branches adds all of their names. -/
theorem mem_names_uniteAll {types : TypeMap} {branches : List TypeMap} {name : String} :
    name ∈ names (types.uniteAll branches) ↔
      name ∈ names types ∨ name ∈ branches.flatMap names := by
  induction branches generalizing types with
  | nil => simp [uniteAll]
  | cons branch rest ih =>
      have hnext : types.uniteAll (branch :: rest) =
          (branch.foldl unite types).uniteAll rest := rfl
      rw [hnext, ih, mem_names_foldl_unite, or_assoc, List.flatMap_cons, List.mem_append]

theorem exists_value?_of_mem_names {types : TypeMap} {name : String} (hmem : name ∈ names types) :
    ∃ type, types.value? name = some type :=
  Option.ne_none_iff_exists'.1 fun hnone => KeyedList.value?_eq_none_iff.1 hnone hmem

/-! ### What is united is part of the union -/

theorem Widened.trans {first second third : TypeMap} (hleft : first.Widened second)
    (hright : second.Widened third) : first.Widened third where
  closed := hright.closed
  wider name type hknown := by
    obtain ⟨middle, hmiddle, hatoms⟩ := hleft.wider name type hknown
    obtain ⟨wide, hwide, hmore⟩ := hright.wider name middle hmiddle
    exact ⟨wide, hwide, fun atom hmem => hmore atom (hatoms atom hmem)⟩

/-- What is united is part of the union. -/
theorem exists_value?_unite {types : TypeMap} (htypes : ∀ entry ∈ types, Closed entry.2)
    {entry : String × String} (hentry : Closed entry.2) :
    ∃ wide, (types.unite entry).value? entry.1 = some wide ∧
      ∀ atom ∈ atoms entry.2, atom ∈ atoms wide := by
  rw [unite]
  split
  · rename_i known hknown
    have hclosed : Closed known := htypes _ (KeyedList.mem_of_value? hknown)
    exact ⟨_, KeyedList.value?_put_self _ _ _,
      fun atom hmem => (mem_atoms_merge hclosed hentry).2 (Or.inr hmem)⟩
  · exact ⟨_, KeyedList.value?_put_self _ _ _, fun atom hmem => hmem⟩

section

variable {types : TypeMap} (htypes : ∀ entry ∈ types, Closed entry.2)

include htypes

/-- A branch that is united is part of the union. -/
theorem widened_foldl_unite {branch : TypeMap} (hbranch : ∀ entry ∈ branch, Closed entry.2) :
    branch.Widened (branch.foldl unite types) := by
  induction branch generalizing types with
  | nil => exact ⟨htypes, fun _ _ hknown => nomatch hknown⟩
  | cons entry rest ih =>
      obtain ⟨hentry, hrest⟩ := List.forall_mem_cons.1 hbranch
      have hunited := forall_unite keptByMerge_closed htypes hentry
      have hlater : (types.unite entry).Widened ((types.unite entry).uniteAll [rest]) :=
        widened_uniteAll hunited (by simpa using hrest)
      have hothers := ih hunited hrest
      refine ⟨hothers.closed, fun name type hknown => ?_⟩
      rw [KeyedList.value?_cons] at hknown
      split at hknown
      · rename_i hname
        obtain ⟨middle, hmiddle, hatoms⟩ := exists_value?_unite htypes hentry
        cases hknown
        obtain ⟨wide, hwide, hmore⟩ := hlater.wider entry.1 middle hmiddle
        exact ⟨wide, hname ▸ hwide, fun atom hmem => hmore atom (hatoms atom hmem)⟩
      · exact hothers.wider name type hknown

/-- Every branch counts in the union. -/
theorem widened_uniteAll_of_mem {branches : List TypeMap}
    (hbranches : ∀ branch ∈ branches, ∀ entry ∈ branch, Closed entry.2) {branch : TypeMap}
    (hmem : branch ∈ branches) : branch.Widened (types.uniteAll branches) := by
  obtain ⟨earlier, later, rfl⟩ := List.append_of_mem hmem
  obtain ⟨hearlier, hothers⟩ := List.forall_mem_append.1 hbranches
  obtain ⟨hbranch, hlater⟩ := List.forall_mem_cons.1 hothers
  have hbefore := (widened_uniteAll htypes hearlier).closed
  have hunited := widened_foldl_unite hbefore hbranch
  have hsplit : types.uniteAll (earlier ++ branch :: later) =
      (branch.foldl unite (types.uniteAll earlier)).uniteAll later := by
    rw [uniteAll, List.foldl_append]
    rfl
  rw [hsplit]
  exact hunited.trans (widened_uniteAll hunited.closed hlater)

end

end TypeMap

namespace VariableTable

namespace Step

mutual

/-- What a step records are the variables that it assigns. -/
theorem mem_names_record {name : String} : (step : Step) → {types : TypeMap} →
    (name ∈ (step.record types).names ↔
      name ∈ types.names ∨ name ∈ TypeMap.names step.assignments)
  | assign key type, types => by
      rw [record, assignments, TypeMap.mem_names_put, TypeMap.names, TypeMap.names,
        List.map_singleton, List.mem_singleton]
  | conditional arms, types => by
      rw [record, assignments, TypeMap.mem_names_uniteAll, mem_names_recordsOfArms arms]
  | function carried body, types => by
      rw [record, assignments]
      exact (or_iff_left List.not_mem_nil).symm

/-- The steps of an arm record the variables that they assign. -/
theorem mem_names_recordAll {name : String} : (steps : List Step) → {types : TypeMap} →
    (name ∈ (recordAll steps types).names ↔
      name ∈ types.names ∨ name ∈ TypeMap.names (assignmentsInAll steps))
  | [], types => by
      rw [recordAll, assignmentsInAll]
      exact (or_iff_left List.not_mem_nil).symm
  | step :: rest, types => by
      rw [recordAll, assignmentsInAll, mem_names_recordAll rest, mem_names_record step, or_assoc,
        TypeMap.names_append, List.mem_append]

theorem mem_names_recordsOfArms {name : String} : (arms : List (List Step)) →
    (name ∈ (recordsOfArms arms).flatMap TypeMap.names ↔
      name ∈ TypeMap.names (assignmentsInArms arms))
  | [] => by
      rw [recordsOfArms, assignmentsInArms]
      rfl
  | arm :: rest => by
      rw [recordsOfArms, assignmentsInArms, List.flatMap_cons, List.mem_append,
        mem_names_recordAll arm, mem_names_recordsOfArms rest, TypeMap.names_append,
        List.mem_append, TypeMap.names, List.map_nil, or_iff_right List.not_mem_nil]

end

theorem mem_recordsOfArms {arms : List (List Step)} {arm : List Step} (hmem : arm ∈ arms) :
    recordAll arm [] ∈ recordsOfArms arms := by
  induction arms with
  | nil => cases hmem
  | cons first rest ih =>
      rw [recordsOfArms]
      rcases List.mem_cons.1 hmem with rfl | hrest
      · exact List.mem_cons_self
      · exact List.mem_cons_of_mem _ (ih hrest)

end Step

/-! ## Scopes -/

theorem value?_foldl_put (f : String → String) (carried : List String) (types : TypeMap)
    (name : String) :
    (carried.foldl (fun types name => KeyedList.put name (f name) types) types).value? name =
      if name ∈ carried then some (f name) else types.value? name := by
  induction carried generalizing types with
  | nil => rfl
  | cons first rest ih =>
      rw [List.foldl_cons, ih]
      by_cases hrest : name ∈ rest
      · rw [if_pos hrest, if_pos (List.mem_cons_of_mem first hrest)]
      · rw [if_neg hrest]
        by_cases hfirst : name = first
        · subst hfirst
          rw [if_pos List.mem_cons_self, KeyedList.value?_put_self]
        · rw [if_neg (List.not_mem_cons_of_ne_of_not_mem hfirst hrest),
            KeyedList.value?_put_of_ne _ _ hfirst]

/-- A scope knows the variables that are carried into it, with their types. -/
theorem getType_openScope (table : VariableTable) (carried : List String) (name : String) :
    (table.openScope carried).getType name =
      if name ∈ carried then table.getType name else "" := by
  have htypes : (table.openScope carried).top.types.value? name =
      if name ∈ carried then some (table.getType name) else none :=
    value?_foldl_put table.getType carried [] name
  rw [getType, lookup, htypes]
  by_cases hcarried : name ∈ carried
  · simp only [if_pos hcarried]
  · simp only [if_neg hcarried, openScope, if_true]

/-! ## Conditionals -/

/-- An arm starts with the types from before the conditional. -/
theorem getType_start_of_arm (table : VariableTable) (earlier : List (List Step)) (name : String) :
    (Step.runArms earlier table).openBranch.getType name = table.getType name := by
  rw [Step.runArms_eq]
  rfl

/-- At the end of an arm a variable that it assigns has the type that is recorded. -/
theorem getType_end_of_arm (table : VariableTable) (arm : List Step) {name : String}
    (hassigned : name ∈ TypeMap.names (Step.assignmentsInAll arm)) :
    ∃ type, (Step.recordAll arm []).value? name = some type ∧
      (Step.runAll arm table.openBranch).getType name = type := by
  obtain ⟨type, htype⟩ := TypeMap.exists_value?_of_mem_names
    ((Step.mem_names_recordAll arm).2 (Or.inr hassigned))
  refine ⟨type, htype, ?_⟩
  have hopen : table.openBranch.top.types = [] := rfl
  rw [Step.runAll_eq arm (by rfl), getType_withTypes, hopen, htype]

/-- The arms of a conditional do not see each other, and after it a variable can
be all that it could be at the end of an arm that assigns it; if no arm assigns
it, it keeps its type.  A scope sees what is carried into it and nothing else. -/
theorem getType_conditional_arms {table : VariableTable} (hparked : table.top.parked = [])
    (htable : ∀ entry ∈ table.top.types, Closed entry.2) {arms : List (List Step)}
    (harms : ∀ entry ∈ (Step.conditional arms).assignments, Closed entry.2) :
    (∀ earlier arm later, arms = earlier ++ arm :: later →
      let start := (Step.runArms earlier table).openBranch
      (∀ name, start.getType name = table.getType name) ∧
        ∀ name ∈ TypeMap.names (Step.assignmentsInAll arm),
          ∀ atom ∈ atoms ((Step.runAll arm start).getType name),
            atom ∈ atoms (((Step.conditional arms).run table).getType name)) ∧
    (∀ name, name ∉ TypeMap.names (Step.conditional arms).assignments →
      ((Step.conditional arms).run table).getType name = table.getType name) ∧
    ∀ (outer : VariableTable) (carried : List String) (name : String),
      (outer.openScope carried).getType name =
        if name ∈ carried then outer.getType name else "" := by
  have hbranches := Step.forall_recordsOfArms TypeMap.keptByMerge_closed arms harms
  have hafter : (Step.conditional arms).run table =
      table.withTypes (table.top.types.uniteAll (Step.recordsOfArms arms)) := by
    rw [Step.run_eq _ hparked, Step.record]
  refine ⟨?_, ?_, getType_openScope⟩
  · intro earlier arm later hsplit start
    refine ⟨getType_start_of_arm table earlier, fun name hassigned => ?_⟩
    have hmem : arm ∈ arms := by
      rw [hsplit]
      exact List.mem_append_right _ List.mem_cons_self
    obtain ⟨type, htype, hend⟩ := getType_end_of_arm (Step.runArms earlier table) arm hassigned
    obtain ⟨wide, hwide, hatoms⟩ := (TypeMap.widened_uniteAll_of_mem htable hbranches
      (Step.mem_recordsOfArms hmem)).wider name type htype
    rw [hafter, getType_withTypes, hwide, hend]
    exact hatoms
  · intro name hunassigned
    have hother := Step.forall_recordsOfArms (TypeMap.keptByMerge_ne name) arms
      fun entry hmem heq => hunassigned (heq ▸ List.mem_map_of_mem hmem)
    rw [hafter, getType_withTypes, TypeMap.value?_uniteAll_of_ne hother]
    rfl

/-- An arm with a conditional in it, and one with a function. -/
def nestedArms : List (List Step) :=
  [[.assign "$v" "string", .conditional [[.assign "$w" "A"], []]],
    [.function ["$v"] [.assign "$v" "float"], .assign "$w" "B"]]

/-- The arms are read apart, and both types of `$w` are part of its type behind them. -/
theorem getType_conditional_arms_nested :
    recordingBranch.top.parked = [] ∧
      (∀ entry ∈ recordingBranch.top.types, Closed entry.2) ∧
      (∀ entry ∈ (Step.conditional nestedArms).assignments, Closed entry.2) ∧
      (Step.runArms [nestedArms[0]] recordingBranch).openBranch.getType "$v" = "int" ∧
      "A" ∈ atoms (((Step.conditional nestedArms).run recordingBranch).getType "$w") ∧
      "B" ∈ atoms (((Step.conditional nestedArms).run recordingBranch).getType "$w") := by
  have htable : ∀ entry ∈ recordingBranch.top.types, Closed entry.2 := by decide
  have harms : ∀ entry ∈ (Step.conditional nestedArms).assignments, Closed entry.2 := by decide
  have hall := (getType_conditional_arms rfl htable harms).1
  have hfirst := (hall [] nestedArms[0] [nestedArms[1]] rfl).2 "$w" (by decide)
  have hsecond := hall [nestedArms[0]] nestedArms[1] [] rfl
  refine ⟨rfl, htable, harms, ?_, hfirst "A" (by decide +kernel),
    hsecond.2 "$w" (by decide) "B" (by decide +kernel)⟩
  rw [hsecond.1]
  decide

end VariableTable

end SymbolIndex
