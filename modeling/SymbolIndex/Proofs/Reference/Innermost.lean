import SymbolIndex.Reference

/-!
# The innermost reference at a position

The lookup of a reference goes into every scope that contains the position and
comes back from those without a reference for it.  So it finds one whenever some
way through such scopes leads to one, and none is further inside on the way of
the one found.  The lookup of a scope takes the first scope at each level and
never comes back.  The two agree where no level has more than one to take.
-/

namespace SymbolIndex

namespace Scope

variable {position : Position} {scope inner found : Scope} {reference : Reference}

/-! ## Levels -/

theorem mem_scopes : inner ∈ scope.scopes ↔ ScopeChild.scope inner ∈ scope.children := by
  rw [scopes, List.mem_filterMap]
  constructor
  · rintro ⟨child, hchild, hinner⟩
    cases child with
    | scope other =>
        obtain rfl : other = inner := Option.some.inj hinner
        exact hchild
    | reference other => cases hinner
  · intro hchild
    exact ⟨.scope inner, hchild, rfl⟩

mutual

/-- A property of scopes by the scopes directly inside. -/
theorem nesting_induction {P : Scope → Prop}
    (hscope : ∀ scope : Scope, (∀ inner ∈ scope.scopes, P inner) → P scope) :
    (scope : Scope) → P scope
  | ⟨location, children⟩ => hscope ⟨location, children⟩ fun inner hinner =>
      nesting_inductionIn hscope children inner (mem_scopes.1 hinner)

theorem nesting_inductionIn {P : Scope → Prop}
    (hscope : ∀ scope : Scope, (∀ inner ∈ scope.scopes, P inner) → P scope) :
    (children : List ScopeChild) → ∀ inner, ScopeChild.scope inner ∈ children → P inner
  | [] => fun _ hmem => absurd hmem List.not_mem_nil
  | .reference _ :: rest => fun inner hmem =>
      nesting_inductionIn hscope rest inner ((List.mem_cons.1 hmem).resolve_left nofun)
  | .scope first :: rest => by
      intro inner hmem
      rcases List.mem_cons.1 hmem with hfirst | hrest
      · rw [ScopeChild.scope.inj hfirst]
        exact nesting_induction hscope first
      · exact nesting_inductionIn hscope rest inner hrest

end

/-- The scopes directly inside that contain the position. -/
def covering (position : Position) (scope : Scope) : List Scope :=
  scope.scopes.filter (·.covers position)

theorem covering_cons (position : Position) (location : Location) (inner : Scope)
    (rest : List ScopeChild) :
    covering position ⟨location, .scope inner :: rest⟩ =
      if inner.covers position then inner :: covering position ⟨location, rest⟩
      else covering position ⟨location, rest⟩ := by
  have hscopes : (⟨location, .scope inner :: rest⟩ : Scope).scopes =
    inner :: (⟨location, rest⟩ : Scope).scopes := rfl
  rw [covering, hscopes, List.filter_cons]
  rfl

/-- The scopes that contain the position are searched first, then the references beside them. -/
theorem referenceAt?_eq (position : Position) (scope : Scope) :
    scope.referenceAt? position =
      ((scope.covering position).findSome? (referenceAt? position)).or
        (scope.references.find? (·.covers position)) := by
  obtain ⟨location, children⟩ := scope
  have hnested : nestedAt? position children =
      ((⟨location, children⟩ : Scope).covering position).findSome? (referenceAt? position) := by
    induction children with
    | nil => rfl
    | cons child rest ih =>
        cases child with
        | reference other => rw [nestedAt?, ih]; rfl
        | scope inner =>
            rw [nestedAt?, ih, covering_cons]
            split
            · rw [List.findSome?_cons]
              cases referenceAt? position inner with
              | none => rfl
              | some reference => rfl
            · rfl
  rw [referenceAt?, hnested]

/-- The innermost scope is that of the first scope that contains the position, or the scope
itself. -/
theorem innermost_eq (position : Position) (scope : Scope) :
    scope.innermost position =
      (scope.covering position).head?.elim scope (innermost position) := by
  obtain ⟨location, children⟩ := scope
  have hnested : innermostIn? position children =
      ((⟨location, children⟩ : Scope).covering position).head?.map (innermost position) := by
    induction children with
    | nil => rfl
    | cons child rest ih =>
        cases child with
        | reference other => rw [innermostIn?, ih]; rfl
        | scope inner =>
            rw [innermostIn?, ih, covering_cons]
            split
            · rfl
            · rfl
  rw [innermost, hnested]
  cases ((⟨location, children⟩ : Scope).covering position).head? with
  | none => rfl
  | some inner => rfl

/-! ## Ways -/

/-- A way from a scope to one inside, by places among the scopes directly inside.  Every scope
that it enters contains the position. -/
inductive Leads (position : Position) : Scope → List Nat → Scope → Prop
  | here (scope : Scope) : Leads position scope [] scope
  | into {scope inner found : Scope} {place : Nat} {way : List Nat} :
      scope.scopes[place]? = some inner → inner.covers position = true →
      Leads position inner way found → Leads position scope (place :: way) found

/-- A reference that contains the position stands directly in the scope at the end of a way. -/
def Lies (position : Position) (scope : Scope) (way : List Nat) (reference : Reference) : Prop :=
  ∃ holder, Leads position scope way holder ∧ reference ∈ holder.references ∧
    reference.covers position = true

/-- At no level is there more than one scope to enter. -/
def OneWay (position : Position) (scope : Scope) : Prop :=
  ∀ way inner, Leads position scope way inner → (inner.covering position).length ≤ 1

theorem lies_nil : Lies position scope [] reference ↔
    reference ∈ scope.references ∧ reference.covers position = true := by
  constructor
  · rintro ⟨holder, hleads, hlies⟩
    cases hleads
    exact hlies
  · intro hlies
    exact ⟨scope, .here scope, hlies⟩

/-- A way begins with a scope that contains the position. -/
theorem lies_cons {place : Nat} {way : List Nat} :
    Lies position scope (place :: way) reference ↔
      ∃ inner, scope.scopes[place]? = some inner ∧ inner.covers position = true ∧
        Lies position inner way reference := by
  constructor
  · rintro ⟨holder, hleads, hlies⟩
    cases hleads with
    | into hplace hcovers hrest => exact ⟨_, hplace, hcovers, holder, hrest, hlies⟩
  · rintro ⟨inner, hplace, hcovers, holder, hrest, hlies⟩
    exact ⟨holder, .into hplace hcovers hrest, hlies⟩

theorem mem_covering_of_getElem? {place : Nat} (hplace : scope.scopes[place]? = some inner)
    (hcovers : inner.covers position = true) : inner ∈ scope.covering position :=
  List.mem_filter.2 ⟨List.mem_of_getElem? hplace, hcovers⟩

theorem exists_getElem?_of_mem_covering (hinner : inner ∈ scope.covering position) :
    ∃ place : Nat, scope.scopes[place]? = some inner ∧ inner.covers position = true := by
  obtain ⟨hmem, hcovers⟩ := List.mem_filter.1 hinner
  obtain ⟨place, hplace⟩ := List.mem_iff_getElem?.1 hmem
  exact ⟨place, hplace, hcovers⟩

/-! ## The reference -/

/-- Whatever way leads to a reference at the position, some reference is found. -/
theorem isSome_referenceAt?_of_lies (scope : Scope) {way : List Nat}
    (hlies : Lies position scope way reference) : (scope.referenceAt? position).isSome = true := by
  induction scope using nesting_induction generalizing way with
  | hscope scope ih =>
      rw [referenceAt?_eq, Option.isSome_or, Bool.or_eq_true]
      cases way with
      | nil =>
          obtain ⟨hmem, hcovers⟩ := lies_nil.1 hlies
          exact Or.inr (List.find?_isSome.2 ⟨reference, hmem, hcovers⟩)
      | cons place way =>
          obtain ⟨inner, hplace, hcovers, hinner⟩ := lies_cons.1 hlies
          have hfound := ih inner (List.mem_of_getElem? hplace) hinner
          exact Or.inl (List.findSome?_isSome_iff.2
            ⟨inner, mem_covering_of_getElem? hplace hcovers, hfound⟩)

/-- What is found is a reference at the position to which a way leads, and no longer way goes on
from its scope to another. -/
theorem exists_lies_of_referenceAt? (scope : Scope)
    (hfound : scope.referenceAt? position = some reference) :
    ∃ way, Lies position scope way reference ∧
      ∀ further other, further ≠ [] → ¬ Lies position scope (way ++ further) other := by
  induction scope using nesting_induction with
  | hscope scope ih =>
      rw [referenceAt?_eq, Option.or_eq_some_iff] at hfound
      rcases hfound with hnested | ⟨hnone, hdirect⟩
      · obtain ⟨inner, hinner, hfound⟩ := List.exists_of_findSome?_eq_some hnested
        obtain ⟨place, hplace, hcovers⟩ := exists_getElem?_of_mem_covering hinner
        obtain ⟨way, hlies, hlast⟩ := ih inner (List.mem_of_getElem? hplace) hfound
        refine ⟨place :: way, lies_cons.2 ⟨inner, hplace, hcovers, hlies⟩, ?_⟩
        intro further other hfurther hother
        obtain ⟨entered, hentered, -, hbelow⟩ := lies_cons.1 hother
        obtain rfl : inner = entered := Option.some.inj (hplace.symm.trans hentered)
        exact hlast further other hfurther hbelow
      · refine ⟨[], lies_nil.2 ⟨List.mem_of_find?_eq_some hdirect, ?_⟩, ?_⟩
        · have hcovers := List.find?_some hdirect
          exact hcovers
        · intro further other hfurther hother
          obtain ⟨place, way, rfl⟩ := List.exists_cons_of_ne_nil hfurther
          obtain ⟨inner, hplace, hcovers, hinner⟩ := lies_cons.1 hother
          have hmissed := List.findSome?_eq_none_iff.1 hnone inner
            (mem_covering_of_getElem? hplace hcovers)
          have hsome := isSome_referenceAt?_of_lies inner hinner
          rw [hmissed] at hsome
          cases hsome

/-! ## The scope -/

/-- There is one way from a scope if there is one scope to enter at most, and one way from there.
-/
theorem oneWay_iff : OneWay position scope ↔
    (scope.covering position).length ≤ 1 ∧
      ∀ inner ∈ scope.covering position, OneWay position inner := by
  constructor
  · intro honeWay
    refine ⟨honeWay [] scope (.here scope), ?_⟩
    intro inner hinner way found hleads
    obtain ⟨place, hplace, hcovers⟩ := exists_getElem?_of_mem_covering hinner
    exact honeWay (place :: way) found (.into hplace hcovers hleads)
  · rintro ⟨hone, hinner⟩ way found hleads
    cases hleads with
    | here => exact hone
    | into hplace hcovers hrest =>
        exact hinner _ (mem_covering_of_getElem? hplace hcovers) _ found hrest

/-- Two elements that pass a test stand at one place if at most one element passes it. -/
theorem eq_of_length_filter_le_one {α : Type} {p : α → Bool} {items : List α}
    (hone : (items.filter p).length ≤ 1) {left right : Nat} {item other : α}
    (hleft : items[left]? = some item) (hright : items[right]? = some other)
    (hitem : p item = true) (hother : p other = true) : left = right := by
  induction items generalizing left right with
  | nil => cases hleft
  | cons first rest ih =>
      rw [List.filter_cons] at hone
      cases left with
      | zero =>
          obtain rfl : first = item := Option.some.inj hleft
          cases right with
          | zero => rfl
          | succ right =>
              rw [List.getElem?_cons_succ] at hright
              have hmem := List.mem_filter.2 ⟨List.mem_of_getElem? hright, hother⟩
              have hpos := List.length_pos_of_mem hmem
              rw [if_pos hitem, List.length_cons] at hone
              omega
      | succ left =>
          rw [List.getElem?_cons_succ] at hleft
          cases right with
          | zero =>
              obtain rfl : first = other := Option.some.inj hright
              have hmem := List.mem_filter.2 ⟨List.mem_of_getElem? hleft, hitem⟩
              have hpos := List.length_pos_of_mem hmem
              rw [if_pos hother, List.length_cons] at hone
              omega
          | succ right =>
              rw [List.getElem?_cons_succ] at hright
              have hrest : (rest.filter p).length ≤ 1 := by
                split at hone
                · exact Nat.le_of_succ_le hone
                · exact hone
              rw [ih hrest hleft hright]

/-- If there is one way only, all ways are on the way to the innermost scope. -/
theorem exists_leads_innermost (scope : Scope) (honeWay : OneWay position scope) :
    ∃ last, Leads position scope last (scope.innermost position) ∧
      ∀ way found, Leads position scope way found → way <+: last := by
  induction scope using nesting_induction with
  | hscope scope ih =>
      obtain ⟨hone, hbelow⟩ := oneWay_iff.1 honeWay
      rw [innermost_eq]
      cases hcovering : (scope.covering position).head? with
      | none =>
          refine ⟨[], .here scope, ?_⟩
          intro way found hleads
          cases hleads with
          | here => exact List.nil_prefix
          | into hplace hcovers _ =>
              have hmem := mem_covering_of_getElem? hplace hcovers
              rw [List.head?_eq_none_iff.1 hcovering] at hmem
              exact absurd hmem List.not_mem_nil
      | some inner =>
          have hinner := List.mem_of_mem_head? hcovering
          obtain ⟨place, hplace, hcovers⟩ := exists_getElem?_of_mem_covering hinner
          obtain ⟨last, hleads, hlast⟩ := ih inner (List.mem_of_getElem? hplace)
            (hbelow inner hinner)
          refine ⟨place :: last, .into hplace hcovers hleads, ?_⟩
          intro way found hother
          cases hother with
          | here => exact List.nil_prefix
          | into hentered hcovered hrest =>
              obtain rfl := eq_of_length_filter_le_one hone hplace hentered hcovers hcovered
              obtain rfl := Option.some.inj (hplace.symm.trans hentered)
              exact List.cons_prefix_cons.2 ⟨rfl, hlast _ found hrest⟩

end Scope

namespace ReferenceTable

/-! ## Lookups in a table -/

/-- A reference is found at a position exactly if some way through scopes that contain the position
leads to one.  The one found is at the end of such a way, and none is further inside on it.  Where
no level has more than one scope to enter, it stands in the innermost scope or in one around it. -/
theorem referenceAt?_innermost (table : ReferenceTable) (position : Position) :
    ((table.referenceAt? position).isSome = true ↔
      ∃ way reference, table.root.Lies position way reference) ∧
    ∀ reference, table.referenceAt? position = some reference →
      ∃ way, table.root.Lies position way reference ∧
        (∀ further other, further ≠ [] → ¬ table.root.Lies position (way ++ further) other) ∧
        (table.root.OneWay position →
          ∃ last, table.root.Leads position last (table.scopeAt position) ∧ way <+: last) := by
  refine ⟨⟨?_, ?_⟩, ?_⟩
  · intro hsome
    obtain ⟨reference, hfound⟩ := Option.isSome_iff_exists.1 hsome
    obtain ⟨way, hlies, -⟩ := Scope.exists_lies_of_referenceAt? table.root hfound
    exact ⟨way, reference, hlies⟩
  · rintro ⟨way, reference, hlies⟩
    exact Scope.isSome_referenceAt?_of_lies table.root hlies
  · intro reference hfound
    obtain ⟨way, hlies, hlast⟩ := Scope.exists_lies_of_referenceAt? table.root hfound
    refine ⟨way, hlies, hlast, fun honeWay => ?_⟩
    obtain ⟨last, hleads, hways⟩ := Scope.exists_leads_innermost table.root honeWay
    obtain ⟨holder, hholder, -⟩ := hlies
    exact ⟨last, hleads, hways way holder hholder⟩

/-! ### Two scopes that touch, the first with a scope inside -/

def stretch (startLine startCharacter stopLine stopCharacter : Nat) : Location :=
  ⟨"a", ⟨startLine, startCharacter⟩, ⟨stopLine, stopCharacter⟩⟩

def calledName : Reference := { kind := .function, name := "f", location := stretch 2 4 2 10 }

def touchingName : Reference := { kind := .classType, name := "A", location := stretch 3 1 3 2 }

def emptyScope : Scope := ⟨stretch 2 0 2 20, []⟩

def callingScope : Scope := ⟨stretch 1 0 3 1, [.scope emptyScope, .reference calledName]⟩

def touchingScopes : ReferenceTable :=
  .new "a" ⟨stretch 0 0 9 0,
    [.scope callingScope, .scope ⟨stretch 3 1 5 0, [.reference touchingName]⟩]⟩

theorem oneWay_touchingScopes : touchingScopes.root.OneWay ⟨2, 5⟩ := by
  have houter : touchingScopes.root.covering ⟨2, 5⟩ = [callingScope] := rfl
  have hinner : callingScope.covering ⟨2, 5⟩ = [emptyScope] := rfl
  have hnone : emptyScope.covering ⟨2, 5⟩ = [] := rfl
  rw [Scope.oneWay_iff, houter, List.forall_mem_singleton, Scope.oneWay_iff, hinner,
    List.forall_mem_singleton, Scope.oneWay_iff, hnone]
  exact ⟨Nat.le_refl 1, Nat.le_refl 1, Nat.zero_le 1, List.forall_mem_nil _⟩

/-- The scope inside has no reference at the position, the one around it has. -/
theorem referenceAt?_innermost_touching :
    touchingScopes.referenceAt? ⟨2, 5⟩ = some calledName ∧
      touchingScopes.root.OneWay ⟨2, 5⟩ ∧
      ∃ way last, touchingScopes.root.Lies ⟨2, 5⟩ way calledName ∧
        touchingScopes.root.Leads ⟨2, 5⟩ last (touchingScopes.scopeAt ⟨2, 5⟩) ∧ way <+: last := by
  have hfound : touchingScopes.referenceAt? ⟨2, 5⟩ = some calledName := rfl
  obtain ⟨way, hlies, -, hheld⟩ :=
    (touchingScopes.referenceAt?_innermost ⟨2, 5⟩).2 calledName hfound
  obtain ⟨last, hleads, hinitial⟩ := hheld oneWay_touchingScopes
  exact ⟨hfound, oneWay_touchingScopes, way, last, hlies, hleads, hinitial⟩

/-- Where two scopes touch, the reference may be in the one that is not entered first. -/
example : touchingScopes.referenceAt? ⟨3, 1⟩ = some touchingName ∧
    (touchingScopes.scopeAt ⟨3, 1⟩).references = [calledName] :=
  ⟨rfl, rfl⟩

end ReferenceTable

end SymbolIndex
