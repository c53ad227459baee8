import SymbolIndex.Proofs.Position
import SymbolIndex.Reference

/-!
# Scopes that hold what is in them

A scope is snug if its inner scopes and its references lie inside its range, at
every depth.  A lookup by position goes down through the scopes that contain the
position.  In a snug scope this leads to some reference at every position that
belongs to one, though perhaps to another that belongs to it too.
-/

namespace SymbolIndex

theorem Range.contains_of_containsRange {outer inner : Range} {position : Position}
    (hinside : outer.containsRange inner = true) (hcontains : inner.contains position = true) :
    outer.contains position = true := by
  rw [containsRange_iff] at hinside
  rw [contains_iff] at hcontains ⊢
  exact ⟨le_trans hinside.1 hcontains.1, le_trans hcontains.2 hinside.2⟩

theorem Range.containsRange_trans {outer middle inner : Range}
    (houter : outer.containsRange middle = true) (hinner : middle.containsRange inner = true) :
    outer.containsRange inner = true := by
  rw [containsRange_iff] at houter hinner ⊢
  exact ⟨le_trans houter.1 hinner.1, le_trans hinner.2 houter.2⟩

mutual

/-- What is in the scope lies inside its range, at every depth. -/
def Scope.isSnug : Scope → Bool
  | ⟨location, children⟩ => ScopeChild.areSnug location.range children

def ScopeChild.isSnug (range : Range) : ScopeChild → Bool
  | .scope inner => range.containsRange inner.location.range && inner.isSnug
  | .reference reference => range.containsRange reference.range

def ScopeChild.areSnug (range : Range) : List ScopeChild → Bool
  | [] => true
  | child :: rest => child.isSnug range && ScopeChild.areSnug range rest

end

theorem ScopeChild.areSnug_iff {range : Range} {children : List ScopeChild} :
    areSnug range children = true ↔ ∀ child ∈ children, child.isSnug range = true := by
  induction children with
  | nil => simp [areSnug]
  | cons child rest ih => rw [areSnug, Bool.and_eq_true, List.forall_mem_cons, ih]

namespace Scope

open ScopeChild

theorem isSnug_iff {scope : Scope} :
    scope.isSnug = true ↔
      ∀ child ∈ scope.children, child.isSnug scope.location.range = true := by
  obtain ⟨location, children⟩ := scope
  rw [isSnug, areSnug_iff]

variable {position : Position} {reference : Reference}

mutual

/-- A snug scope holds all references at any depth. -/
theorem containsRange_of_isSnug : (scope : Scope) → scope.isSnug = true →
    reference ∈ scope.allReferences → scope.location.range.containsRange reference.range = true
  | ⟨location, children⟩ => by
      intro hsnug hmem
      exact containsRange_of_areSnug children hsnug hmem

theorem containsRange_of_areSnug {range : Range} : (children : List ScopeChild) →
    areSnug range children = true → reference ∈ allReferencesIn children →
    range.containsRange reference.range = true
  | [] => fun _ hmem => absurd hmem List.not_mem_nil
  | .reference first :: rest => by
      intro hsnug hmem
      rw [areSnug, Bool.and_eq_true] at hsnug
      rw [allReferencesIn] at hmem
      rcases List.mem_cons.1 hmem with rfl | hrest
      · exact hsnug.1
      · exact containsRange_of_areSnug rest hsnug.2 hrest
  | .scope inner :: rest => by
      intro hsnug hmem
      rw [areSnug, ScopeChild.isSnug, Bool.and_eq_true, Bool.and_eq_true] at hsnug
      obtain ⟨⟨hinside, hinner⟩, hlater⟩ := hsnug
      rw [allReferencesIn] at hmem
      rcases List.mem_append.1 hmem with hbelow | hrest
      · exact Range.containsRange_trans hinside (containsRange_of_isSnug inner hinner hbelow)
      · exact containsRange_of_areSnug rest hlater hrest

end

mutual

/-- In a snug scope a position of some reference leads to one. -/
theorem isSome_referenceAt? : (scope : Scope) → scope.isSnug = true →
    reference ∈ scope.allReferences → reference.covers position = true →
    (scope.referenceAt? position).isSome = true
  | ⟨location, children⟩ => by
      intro hsnug hmem hcovers
      rw [referenceAt?, Option.isSome_or, Bool.or_eq_true]
      rcases isSome_nestedAt? children hsnug hmem hcovers with hdirect | hnested
      · right
        rw [List.find?_isSome]
        refine ⟨reference, ?_, hcovers⟩
        exact List.mem_filterMap.2 ⟨.reference reference, hdirect, rfl⟩
      · exact Or.inl hnested

/-- The reference stands beside the inner scopes, or is found inside one. -/
theorem isSome_nestedAt? {range : Range} : (children : List ScopeChild) →
    areSnug range children = true → reference ∈ allReferencesIn children →
    reference.covers position = true →
    ScopeChild.reference reference ∈ children ∨ (nestedAt? position children).isSome = true
  | [] => fun _ hmem => absurd hmem List.not_mem_nil
  | .reference first :: rest => by
      intro hsnug hmem hcovers
      rw [areSnug, Bool.and_eq_true] at hsnug
      rw [allReferencesIn] at hmem
      rcases List.mem_cons.1 hmem with rfl | hrest
      · exact Or.inl List.mem_cons_self
      · exact (isSome_nestedAt? rest hsnug.2 hrest hcovers).imp (List.mem_cons_of_mem _) id
  | .scope inner :: rest => by
      intro hsnug hmem hcovers
      rw [areSnug, ScopeChild.isSnug, Bool.and_eq_true, Bool.and_eq_true] at hsnug
      obtain ⟨⟨-, hinner⟩, hlater⟩ := hsnug
      rw [allReferencesIn] at hmem
      rw [nestedAt?]
      rcases List.mem_append.1 hmem with hbelow | hrest
      · right
        have hinside := containsRange_of_isSnug inner hinner hbelow
        have hcontains : inner.covers position = true :=
          Range.contains_of_containsRange hinside hcovers
        rw [if_pos hcontains, Option.isSome_or,
          isSome_referenceAt? inner hinner hbelow hcovers, Bool.true_or]
      · refine (isSome_nestedAt? rest hlater hrest hcovers).imp (List.mem_cons_of_mem _) ?_
        intro hnested
        split
        · rw [Option.isSome_or, hnested, Bool.or_true]
        · exact hnested

end

mutual

theorem covers_of_referenceAt? : (scope : Scope) → scope.referenceAt? position = some reference →
    reference.covers position = true
  | ⟨location, children⟩ => by
      intro hfound
      rw [referenceAt?, Option.or_eq_some_iff] at hfound
      rcases hfound with hnested | ⟨-, hdirect⟩
      · exact covers_of_nestedAt? children hnested
      · have hcovers := List.find?_some hdirect
        exact hcovers

theorem covers_of_nestedAt? : (children : List ScopeChild) →
    nestedAt? position children = some reference → reference.covers position = true
  | [] => fun hfound => nomatch hfound
  | .reference _ :: rest => by
      intro hfound
      rw [nestedAt?] at hfound
      exact covers_of_nestedAt? rest hfound
  | .scope inner :: rest => by
      intro hfound
      rw [nestedAt?] at hfound
      split at hfound
      · rcases Option.or_eq_some_iff.1 hfound with hinner | ⟨-, hlater⟩
        · exact covers_of_referenceAt? inner hinner
        · exact covers_of_nestedAt? rest hlater
      · exact covers_of_nestedAt? rest hfound

end

/-- At every position of a reference in a snug scope some reference is found. -/
theorem exists_referenceAt? {scope : Scope} (hsnug : scope.isSnug = true)
    (hmem : reference ∈ scope.allReferences) (hcovers : reference.covers position = true) :
    ∃ found, scope.referenceAt? position = some found ∧ found.covers position = true := by
  obtain ⟨found, hfound⟩ := Option.isSome_iff_exists.1
    (isSome_referenceAt? scope hsnug hmem hcovers)
  exact ⟨found, hfound, covers_of_referenceAt? scope hfound⟩

end Scope

end SymbolIndex
