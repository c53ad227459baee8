import SymbolIndex.KeyedList
import SymbolIndex.TypeExpr

/-!
# Types of variables

What is known of the types of variables at a place of a document. Functions open scopes, which hide
what is outside; the arms of a conditional open branches, which see it. The branches of a
conditional are parked when they are closed and united with their surroundings when the conditional
ends.
-/

namespace SymbolIndex

/-- The types recorded for variables, at most one for each name. -/
abbrev TypeMap := KeyedList String

namespace TypeMap

/-- Records the union of a type with the one recorded before. -/
def unite (types : TypeMap) (entry : String × String) : TypeMap :=
  match types.value? entry.1 with
  | some known => types.put entry.1 (TypeExpr.merge known entry.2)
  | none => types.put entry.1 entry.2

end TypeMap

/-- One level of the table: a scope or a branch, with the closed branches that wait for the end of
their conditional. -/
structure VariableSet where
  isScope : Bool
  types : TypeMap := []
  parked : List TypeMap := []
  deriving Repr, Inhabited

/-- The levels that are open, the innermost apart from those below it. -/
structure VariableTable where
  top : VariableSet := { isScope := true }
  below : List VariableSet := []
  deriving Repr, Inhabited

namespace VariableTable

def new : VariableTable := {}

/-- The type recorded in the innermost level that has one, up to the innermost scope. -/
def lookup (name : String) : List VariableSet → String
  | [] => ""
  | set :: rest =>
    match set.types.value? name with
    | some type => type
    | none => if set.isScope then "" else lookup name rest

def getType (table : VariableTable) (name : String) : String :=
  lookup name (table.top :: table.below)

def setType (table : VariableTable) (name type : String) : VariableTable :=
  { table with top := { table.top with types := table.top.types.put name type } }

/-- Opens a scope in which only the variables of `carried` are known. -/
def openScope (table : VariableTable) (carried : List String) : VariableTable :=
  let types := carried.foldl (fun types name => KeyedList.put name (table.getType name) types) []
  ⟨{ isScope := true, types := types }, table.top :: table.below⟩

/-- Closes the innermost level; the last one stays. -/
def closeScope (table : VariableTable) : VariableTable :=
  match table.below with
  | [] => table
  | next :: rest => ⟨next, rest⟩

def openBranch (table : VariableTable) : VariableTable :=
  ⟨{ isScope := false }, table.top :: table.below⟩

/-- Closes the innermost level if it is a branch, and parks it. -/
def closeBranch (table : VariableTable) : VariableTable :=
  if table.top.isScope then table
  else
    match table.below with
    | [] => table
    | next :: rest => ⟨{ next with parked := next.parked ++ [table.top.types] }, rest⟩

/-- Unites the parked branches with the innermost level. -/
def uniteBranches (table : VariableTable) : VariableTable :=
  let types := table.top.parked.foldl (fun types branch => branch.foldl TypeMap.unite types)
    table.top.types
  { table with top := { table.top with types := types, parked := [] } }

end VariableTable

end SymbolIndex
