import SymbolIndex.Reference
import SymbolIndex.SymbolTable

/-!
# Equality of tables

Symbols and scopes are trees whose nodes hold lists of trees, for which equality
is decided by recursion over both trees at once.  With it equality of tables is
decidable, so that statements about single runs can be evaluated.
-/

namespace SymbolIndex

namespace Symbol

mutual

def decideEq : (left right : Symbol) → Decidable (left = right)
  | ⟨kind, name, location, modifiers, doc, type, associated, children, scope, value⟩,
    ⟨kind', name', location', modifiers', doc', type', associated', children', scope',
      value'⟩ =>
    have := decideEqAll children children'
    decidable_of_iff (kind = kind' ∧ name = name' ∧ location = location' ∧
      modifiers = modifiers' ∧ doc = doc' ∧ type = type' ∧ associated = associated' ∧
      children = children' ∧ scope = scope' ∧ value = value') (by rw [mk.injEq])

def decideEqAll : (left right : List Symbol) → Decidable (left = right)
  | [], [] => isTrue rfl
  | [], _ :: _ => isFalse nofun
  | _ :: _, [] => isFalse nofun
  | first :: rest, first' :: rest' =>
    have := decideEq first first'
    have := decideEqAll rest rest'
    decidable_of_iff (first = first' ∧ rest = rest') (by rw [List.cons.injEq])

end

instance : DecidableEq Symbol := decideEq

end Symbol

namespace Scope

mutual

def decideEq : (left right : Scope) → Decidable (left = right)
  | ⟨location, children⟩, ⟨location', children'⟩ =>
    have := decideEqAll children children'
    decidable_of_iff (location = location' ∧ children = children') (by rw [mk.injEq])

def decideEqAll : (left right : List ScopeChild) → Decidable (left = right)
  | [], [] => isTrue rfl
  | [], _ :: _ => isFalse nofun
  | _ :: _, [] => isFalse nofun
  | .scope _ :: _, .reference _ :: _ => isFalse nofun
  | .reference _ :: _, .scope _ :: _ => isFalse nofun
  | .scope inner :: rest, .scope inner' :: rest' =>
    have := decideEq inner inner'
    have := decideEqAll rest rest'
    decidable_of_iff (inner = inner' ∧ rest = rest') (by simp)
  | .reference use :: rest, .reference use' :: rest' =>
    have := decideEqAll rest rest'
    decidable_of_iff (use = use' ∧ rest = rest') (by simp)

end

instance : DecidableEq Scope := decideEq

end Scope

deriving instance DecidableEq for SymbolTable, ReferenceTable

end SymbolIndex
