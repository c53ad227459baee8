import SymbolIndex.Proofs.KeyedList
import SymbolIndex.VariableTable

/-!
# Levels of a variable table

The levels of a table are a stack: what is open now above what is open around
it.  Two stacks agree when they have levels of the same sorts and are the same
outside the innermost scope.  Whatever happens between opening a scope and
closing it only changes what is above, so that the table is the old one again.
-/

namespace SymbolIndex

namespace VariableTable

/-- The levels that are open, innermost first. -/
def levels (table : VariableTable) : List VariableSet :=
  table.top :: table.below

theorem getType_setType_self (table : VariableTable) (name type : String) :
    (table.setType name type).getType name = type := by
  rw [getType, setType, lookup, KeyedList.value?_put_self]

/-- What is recorded last counts. -/
theorem setType_setType (table : VariableTable) (name type other : String) :
    (table.setType name type).setType name other = table.setType name other := by
  rw [setType, setType, setType, KeyedList.put_put]

/-- Levels of the same sorts, and outside the innermost scope the same levels. -/
inductive LevelsAgree : List VariableSet → List VariableSet → Prop
  | nil : LevelsAgree [] []
  | scope {set other : VariableSet} {rest : List VariableSet} (hset : set.isScope = true)
      (hother : other.isScope = true) : LevelsAgree (set :: rest) (other :: rest)
  | branch {set other : VariableSet} {rest others : List VariableSet}
      (hset : set.isScope = false) (hother : other.isScope = false)
      (hrest : LevelsAgree rest others) : LevelsAgree (set :: rest) (other :: others)

namespace LevelsAgree

variable {first second third : List VariableSet}

theorem refl (levels : List VariableSet) : LevelsAgree levels levels := by
  induction levels with
  | nil => exact nil
  | cons set rest ih =>
      cases hset : set.isScope with
      | true => exact scope hset hset
      | false => exact branch hset hset ih

theorem trans (hleft : LevelsAgree first second) (hright : LevelsAgree second third) :
    LevelsAgree first third := by
  induction hleft generalizing third with
  | nil => exact hright
  | scope hset hother =>
      cases hright with
      | scope _ hthird => exact scope hset hthird
      | branch hsecond => exact absurd hother (Bool.eq_false_iff.1 hsecond)
  | branch hset hother _ ih =>
      cases hright with
      | scope hsecond => exact absurd hsecond (Bool.eq_false_iff.1 hother)
      | branch _ hthird hrest => exact branch hset hthird (ih hrest)

theorem length_eq (hagree : LevelsAgree first second) : second.length = first.length := by
  induction hagree with
  | nil => rfl
  | scope => rfl
  | branch _ _ _ ih => rw [List.length_cons, List.length_cons, ih]

/-- What is recorded in the innermost level does not matter. -/
theorem head {set other : VariableSet} (hsort : other.isScope = set.isScope)
    (rest : List VariableSet) : LevelsAgree (set :: rest) (other :: rest) := by
  cases hset : set.isScope with
  | true => exact scope hset (hsort.trans hset)
  | false => exact branch hset (hsort.trans hset) (refl rest)

end LevelsAgree

/-- Only the sort of the innermost level matters. -/
theorem levelsAgree_of_below {table other : VariableTable}
    (hsort : other.top.isScope = table.top.isScope) (hbelow : other.below = table.below) :
    LevelsAgree table.levels other.levels := by
  rw [levels, levels, hbelow]
  exact LevelsAgree.head hsort table.below

theorem levelsAgree_setType (table : VariableTable) (name type : String) :
    LevelsAgree table.levels (table.setType name type).levels :=
  levelsAgree_of_below rfl rfl

theorem levelsAgree_uniteBranches (table : VariableTable) :
    LevelsAgree table.levels table.uniteBranches.levels :=
  levelsAgree_of_below rfl rfl

/-- The innermost level is a branch, and not the only level. -/
def InBranch (table : VariableTable) : Prop :=
  table.top.isScope = false ∧ table.below ≠ []

/-- Where the levels agree, a branch is still a branch. -/
theorem InBranch.congr {table other : VariableTable} (hbranch : table.InBranch)
    (hagree : LevelsAgree table.levels other.levels) : other.InBranch := by
  obtain ⟨top, below⟩ := table
  obtain ⟨hsort, hbelow⟩ := hbranch
  cases hagree with
  | scope hset => exact absurd hset (Bool.eq_false_iff.1 hsort)
  | branch _ hother hrest =>
      refine ⟨hother, fun hnone => hbelow ?_⟩
      have hlength := hrest.length_eq
      rw [hnone] at hlength
      exact List.length_eq_zero_iff.1 hlength.symm

theorem inBranch_openBranch (table : VariableTable) : table.openBranch.InBranch :=
  ⟨rfl, List.cons_ne_nil _ _⟩

/-- Closing a branch gives back the levels below it, with the branch parked. -/
theorem levelsAgree_closeBranch {table : VariableTable} {set : VariableSet}
    {levels : List VariableSet} (hset : set.isScope = false) (hlevels : levels ≠ [])
    (hagree : LevelsAgree (set :: levels) table.levels) :
    LevelsAgree levels table.closeBranch.levels := by
  obtain ⟨top, below⟩ := table
  cases hagree with
  | scope htrue => exact absurd htrue (Bool.eq_false_iff.1 hset)
  | branch _ hother hrest =>
      cases below with
      | nil => exact absurd (List.length_eq_zero_iff.1 hrest.length_eq.symm) hlevels
      | cons next rest =>
          have hclosed : closeBranch ⟨top, next :: rest⟩ =
              ⟨{ next with parked := next.parked ++ [top.types] }, rest⟩ :=
            if_neg (Bool.eq_false_iff.1 hother)
          have hparked : LevelsAgree (next :: rest)
              ({ next with parked := next.parked ++ [top.types] } :: rest) :=
            LevelsAgree.head (by rfl) rest
          rw [hclosed]
          exact hrest.trans hparked

/-- Closing a branch and opening one again. -/
theorem InBranch.levelsAgree_swap {table : VariableTable} (hbranch : table.InBranch) :
    LevelsAgree table.levels table.closeBranch.openBranch.levels := by
  obtain ⟨hsort, hbelow⟩ := hbranch
  exact LevelsAgree.branch hsort rfl
    (levelsAgree_closeBranch hsort hbelow (LevelsAgree.refl table.levels))

/-- Closing a scope gives back the table in which it was opened, whatever
happened in it. -/
theorem closeScope_eq_of_agree {table inside : VariableTable} {set : VariableSet}
    (hset : set.isScope = true) (hagree : LevelsAgree (set :: table.levels) inside.levels) :
    inside.closeScope = table := by
  obtain ⟨top, below⟩ := inside
  cases hagree with
  | scope => rfl
  | branch hfalse => exact absurd hset (Bool.eq_false_iff.1 hfalse)

end VariableTable

end SymbolIndex
