import SymbolIndex.Symbol.Declared
import SymbolIndex.TypeExpr

/-!
# Type hierarchies

A class-like symbol with everything it extends, implements or uses, and the members it has on the
whole. A member declared more than once is reconciled by a policy.
-/

namespace SymbolIndex

open SymbolIndex.Text

/-- What happens to the declarations of a member in several types. -/
inductive MemberPolicy where
  /-- All of them are members. -/
  | every
  /-- The first one counts: the one nearest to the class. -/
  | override
  /-- The first one with a documentation of its own counts, else the first one. -/
  | documented
  /-- The last one counts: the one farthest from the class. -/
  | base
  deriving DecidableEq, Repr, Inhabited

/-- Finds the declarations of a class-like name among given ones. -/
structure ClassLookup where
  declarations : List Declared
  find : String → List Declared

/-- A class-like symbol among the declarations of `lookup`. -/
structure Hierarchy where
  lookup : ClassLookup
  root : Declared

namespace Hierarchy

/-- The hierarchy of the first declaration of a name. -/
def ofName? (lookup : ClassLookup) (name : String) : Option Hierarchy :=
  (lookup.find name).head?.map (⟨lookup, ·⟩)

def name (hierarchy : Hierarchy) : String :=
  hierarchy.root.symbol.name

/-- The lower-cased names that the root and the declarations refer to. -/
def referredNames (hierarchy : Hierarchy) : List String :=
  ((hierarchy.root :: hierarchy.lookup.declarations).flatMap (·.symbol.associated)).map
    fun id => lower id.name

/-- The names among `names` that were not met yet. -/
def unmet (names met : List String) : List String :=
  names.filter fun name => !met.contains name

/-- The declarations of those names that were not met before, and the names met so far. -/
def discover (find : String → List Declared) (names met : List String) :
    List SymbolId → List String × List Declared
  | [] => (met, [])
  | id :: rest =>
    let key := lower id.name
    if names.contains key && !met.contains key then
      let (met, found) := discover find names (key :: met) rest
      (met, find id.name ++ found)
    else discover find names met rest

theorem length_unmet_cons_le (names met : List String) (key : String) :
    (unmet names (key :: met)).length ≤ (unmet names met).length := by
  induction names with
  | nil => simp [unmet]
  | cons name rest ih =>
    simp only [unmet, List.filter_cons, List.contains_cons] at ih ⊢
    by_cases hmet : met.contains name <;> by_cases hkey : name == key <;> grind

theorem length_unmet_cons_lt {names met : List String} {key : String}
    (hmem : key ∈ names) (hnew : key ∉ met) :
    (unmet names (key :: met)).length < (unmet names met).length := by
  induction names with
  | nil => simp at hmem
  | cons name rest ih =>
    by_cases heq : name = key
    · have hle := length_unmet_cons_le rest met key
      subst heq
      simp only [unmet, List.filter_cons, List.contains_cons] at hle ⊢
      grind
    · have hlt := ih ((List.mem_cons.1 hmem).resolve_left (Ne.symm heq))
      simp only [unmet, List.filter_cons, List.contains_cons] at hlt ⊢
      by_cases hmet : met.contains name <;> simp_all

/-- Whatever is found comes with a name that was not met before. -/
theorem unmet_discover (find : String → List Declared) (names met : List String)
    (ids : List SymbolId) :
    (unmet names (discover find names met ids).1).length < (unmet names met).length ∨
      (discover find names met ids).1 = met ∧ (discover find names met ids).2 = [] := by
  induction ids generalizing met with
  | nil => exact Or.inr ⟨rfl, rfl⟩
  | cons id rest ih =>
    rw [discover]
    split
    · rename_i hnew
      simp only [Bool.and_eq_true, List.contains_iff_mem, Bool.not_eq_true',
        Bool.eq_false_iff, ne_eq] at hnew
      have hlt := length_unmet_cons_lt hnew.1 hnew.2
      rcases ih (lower id.name :: met) with h | ⟨h, -⟩
      · exact Or.inl (Nat.lt_trans h hlt)
      · exact Or.inl (by simpa [h] using hlt)
    · exact ih met

/-- Breadth first, the declarations reached from those in the queue through names not met yet. -/
def reach (find : String → List Declared) (names met : List String) :
    List Declared → List Declared
  | [] => []
  | current :: queue =>
    let discovery := discover find names met current.symbol.associated
    discovery.2 ++ reach find names discovery.1 (queue ++ discovery.2)
termination_by queue => ((unmet names met).length, queue.length)
decreasing_by
  rcases unmet_discover find names met current.symbol.associated with h | ⟨hmet, hfound⟩
  · exact Prod.Lex.left _ _ h
  · rw [hmet, hfound, List.append_nil]
    exact Prod.Lex.right _ (Nat.lt_succ_self _)

/-- The declarations reached from the root, in order of discovery. -/
def reached (hierarchy : Hierarchy) : List Declared :=
  reach hierarchy.lookup.find hierarchy.referredNames [lower hierarchy.name] [hierarchy.root]

def isTrait (declared : Declared) : Bool :=
  declared.symbol.kind == .traitType

/-- The bases and interfaces of the root, direct ones and those of others, then the traits. -/
def associated (hierarchy : Hierarchy) : List Declared :=
  hierarchy.reached.filter (fun declared => !isTrait declared) ++
    hierarchy.reached.filter isTrait

/-- The members declared in a type; the private ones only from within. -/
def membersOf (withPrivate : Bool) (owner : Declared) : List Declared :=
  owner.children.filter fun member =>
    member.symbol.kind.isMember && (withPrivate || !member.symbol.isPrivate)

/-- The members that satisfy a predicate, from the root outwards. -/
def candidates (hierarchy : Hierarchy) (p : Symbol → Bool) : List Declared :=
  (membersOf true hierarchy.root ++ hierarchy.associated.flatMap (membersOf false)).filter
    fun member => p member.symbol

/-- What two declarations of one member have in common. -/
def slot (member : Symbol) : SymbolKind × String :=
  (member.kind, if member.kind.isCaseSensitive then member.name else lower member.name)

/-- A documentation that does not just refer to the inherited one. -/
def ownDoc (member : Symbol) : Bool :=
  member.hasDoc && !member.inheritsDoc

/-- A later declaration takes the place of an earlier one. -/
def replaces (policy : MemberPolicy) (later earlier : Symbol) : Bool :=
  match policy with
  | .base => true
  | .documented => !ownDoc earlier && ownDoc later
  | _ => false

/-- Reconciles a declaration with those before it. -/
def settle (policy : MemberPolicy) (member : Declared) : List Declared → List Declared
  | [] => [member]
  | earlier :: rest =>
    if slot earlier.symbol = slot member.symbol then
      (if replaces policy member.symbol earlier.symbol then member else earlier) :: rest
    else earlier :: settle policy member rest

/-- Reconciles the declarations of members, each at its first place. -/
def reconcile (policy : MemberPolicy) (members : List Declared) : List Declared :=
  if policy = .every then members
  else members.foldl (fun settled member => settle policy member settled) []

/-- Binds the late-bound types of a member to a class. A member that changes is a new symbol. -/
def bind (className : String) (member : Declared) : Declared :=
  let type := TypeExpr.rebind member.symbol.type className
  if type = member.symbol.type then member
  else ⟨none, { member.symbol with type := type }⟩

/-- The members that satisfy a predicate. -/
def members (hierarchy : Hierarchy) (policy : MemberPolicy) (p : Symbol → Bool) :
    List Declared :=
  (reconcile policy (hierarchy.candidates p)).map (bind hierarchy.name)

/-- The members of a kind and a name. -/
def membersNamed (hierarchy : Hierarchy) (policy : MemberPolicy) (kind : SymbolKind)
    (name : String) : List Declared :=
  hierarchy.members policy fun member => member.kind == kind && member.nameEquals name

end Hierarchy

end SymbolIndex
