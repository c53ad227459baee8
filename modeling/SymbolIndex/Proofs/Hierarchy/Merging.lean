import Mathlib.Data.List.Basic
import Mathlib.Data.List.Induction
import SymbolIndex.Hierarchy
import SymbolIndex.Proofs.SortedDistinct

/-!
# Merging of members

The members of a type are declared by the type itself and by all it inherits
from.  Declarations that share a slot stand for one member, and a policy says
which of them counts.  The merge goes through the declarations once and settles
each with what it has so far; what comes of it is said here without that order:
one entry for each slot, where the slot comes first, chosen among all the
declarations of the slot.
-/

namespace SymbolIndex.Hierarchy

/-- The members a type has before they are reconciled: its own, then those that
are not private of all it inherits from. -/
def visibleMembers (hierarchy : Hierarchy) : List Declared :=
  hierarchy.root.children.filter (fun member => member.symbol.kind.isMember) ++
    hierarchy.associated.flatMap fun owner => owner.children.filter fun member =>
      member.symbol.kind.isMember && !member.symbol.isPrivate

/-- The declaration that counts among those of one slot, in order. -/
def chosen? (policy : MemberPolicy) (declarations : List Declared) : Option Declared :=
  match policy with
  | .base => declarations.getLast?
  | .documented =>
    (declarations.find? fun declared => ownDoc declared.symbol).or declarations.head?
  | _ => declarations.head?

/-- The declarations of a slot. -/
def sharing (key : SymbolKind × String) (members : List Declared) : List Declared :=
  members.filter fun member => decide (slot member.symbol = key)

/-- One declaration for each slot, the slots in the order in which they first
appear. -/
def onePerSlot (policy : MemberPolicy) (members : List Declared) : List Declared :=
  (members.map fun member => slot member.symbol).eraseDups.filterMap fun key =>
    chosen? policy (sharing key members)

def merged (policy : MemberPolicy) (members : List Declared) : List Declared :=
  if policy = .every then members else onePerSlot policy members

/-! ## One slot -/

/-- Which of two declarations of one slot is kept. -/
def preferred (policy : MemberPolicy) (later earlier : Declared) : Declared :=
  if replaces policy later.symbol earlier.symbol then later else earlier

/-- What counts is one of the declarations. -/
theorem mem_of_chosen? {policy : MemberPolicy} {declarations : List Declared}
    {declared : Declared} (hchosen : chosen? policy declarations = some declared) :
    declared ∈ declarations := by
  cases policy with
  | every => exact List.mem_of_head? hchosen
  | override => exact List.mem_of_head? hchosen
  | documented =>
      rcases Option.or_eq_some_iff.1 hchosen with hfound | ⟨-, hhead⟩
      · exact List.mem_of_find?_eq_some hfound
      · exact List.mem_of_head? hhead
  | base => exact List.mem_of_getLast? hchosen

theorem chosen?_singleton (policy : MemberPolicy) (declared : Declared) :
    chosen? policy [declared] = some declared := by
  cases policy with
  | every => rfl
  | override => rfl
  | documented => cases hown : ownDoc declared.symbol <;> simp [chosen?, hown]
  | base => rfl

/-- With one more declaration the choice is between that one and the choice so
far. -/
theorem chosen?_concat {policy : MemberPolicy} (hpolicy : policy ≠ .every)
    {declarations : List Declared} {earlier : Declared}
    (hchosen : chosen? policy declarations = some earlier) (later : Declared) :
    chosen? policy (declarations ++ [later]) = some (preferred policy later earlier) := by
  have hhead : ∀ first, declarations.head? = some first →
      (declarations ++ [later]).head? = some first := by
    intro first hfirst
    rw [List.head?_append, hfirst, Option.some_or]
  cases policy with
  | every => exact absurd rfl hpolicy
  | override => exact hhead earlier hchosen
  | base => simp [chosen?, preferred, replaces]
  | documented =>
      rw [chosen?, List.find?_append]
      rcases Option.or_eq_some_iff.1 hchosen with hfound | ⟨hnone, hfirst⟩
      · have hown : ownDoc earlier.symbol = true := by simpa using List.find?_some hfound
        simp [hfound, preferred, replaces, hown]
      · have hown : ownDoc earlier.symbol = false := by
          simpa using List.find?_eq_none.1 hnone earlier (List.mem_of_head? hfirst)
        rw [hnone, Option.none_or, hhead earlier hfirst]
        cases hlater : ownDoc later.symbol <;> simp [preferred, replaces, hown, hlater]

/-! ## One more declaration -/

/-- Settling a declaration with entries of different slots changes the entry of
its own slot, or adds one at the end. -/
theorem settle_filterMap (policy : MemberPolicy) (member : Declared)
    {keys : List (SymbolKind × String)} (hdistinct : keys.Nodup)
    {entry : SymbolKind × String → Option Declared}
    (hentry : ∀ key ∈ keys, ∃ declared, entry key = some declared ∧ slot declared.symbol = key) :
    settle policy member (keys.filterMap entry) =
      if slot member.symbol ∈ keys then
        keys.filterMap fun key =>
          if key = slot member.symbol then (entry key).map (preferred policy member)
          else entry key
      else keys.filterMap entry ++ [member] := by
  induction keys with
  | nil => rfl
  | cons key rest ih =>
      obtain ⟨hnew, hrest⟩ := List.nodup_cons.1 hdistinct
      obtain ⟨⟨declared, hdeclared, hslot⟩, hothers⟩ := List.forall_mem_cons.1 hentry
      rw [List.filterMap_cons_some hdeclared, settle, hslot]
      by_cases heq : key = slot member.symbol
      · have hrest : rest.filterMap entry = rest.filterMap fun other =>
            if other = slot member.symbol then (entry other).map (preferred policy member)
            else entry other := by
          apply List.filterMap_congr
          intro other hother
          have hne : other ≠ slot member.symbol := fun h => hnew (by rwa [heq, ← h])
          rw [if_neg hne]
        have hmem : slot member.symbol ∈ key :: rest := by simp [heq]
        rw [if_pos heq, if_pos hmem, List.filterMap_cons, if_pos heq, hdeclared,
          Option.map_some, ← hrest]
        rfl
      · rw [if_neg heq, ih hrest hothers]
        by_cases hmem : slot member.symbol ∈ rest
        · simp [hmem, heq, hdeclared]
        · simp [hmem, Ne.symm heq]

theorem sharing_concat (key : SymbolKind × String) (members : List Declared)
    (member : Declared) :
    sharing key (members ++ [member]) =
      if key = slot member.symbol then sharing key members ++ [member]
      else sharing key members := by
  by_cases heq : key = slot member.symbol
  · simp [sharing, heq]
  · simp [sharing, heq, Ne.symm heq]

/-- Every slot that occurs has a declaration that counts, and it is one of the
slot. -/
theorem exists_chosen? (policy : MemberPolicy) {members : List Declared}
    {key : SymbolKind × String}
    (hkey : key ∈ (members.map fun member => slot member.symbol).eraseDups) :
    ∃ declared, chosen? policy (sharing key members) = some declared ∧
      slot declared.symbol = key := by
  have hsome : (chosen? policy (sharing key members)).isSome = true := by
    rw [List.mem_eraseDups] at hkey
    obtain ⟨member, hmem, hslot⟩ := List.mem_map.1 hkey
    have hshared : member ∈ sharing key members := List.mem_filter.2 ⟨hmem, by simpa using hslot⟩
    obtain ⟨first, rest, hcons⟩ := List.exists_cons_of_ne_nil (List.ne_nil_of_mem hshared)
    rw [hcons]
    cases policy <;> simp [chosen?]
  obtain ⟨declared, hdeclared⟩ := Option.isSome_iff_exists.1 hsome
  refine ⟨declared, hdeclared, ?_⟩
  simpa using (List.mem_filter.1 (mem_of_chosen? hdeclared)).2

/-- One more declaration settles with the one that counts in its slot, or opens a new slot. -/
theorem onePerSlot_concat {policy : MemberPolicy} (hpolicy : policy ≠ .every)
    (members : List Declared) (member : Declared) :
    onePerSlot policy (members ++ [member]) =
      settle policy member (onePerSlot policy members) := by
  have hdistinct := (eraseDups_spec (members.map fun member => slot member.symbol)).2
  have hsettle := settle_filterMap policy member hdistinct
    fun key hkey => exists_chosen? policy hkey
  rw [onePerSlot, onePerSlot, hsettle, List.map_append, List.map_singleton,
    List.eraseDups_append]
  by_cases hold : slot member.symbol ∈ (members.map fun member => slot member.symbol).eraseDups
  · have hremoved : [slot member.symbol].removeAll (members.map fun member =>
        slot member.symbol) = [] := by
      simpa [List.removeAll] using hold
    rw [if_pos hold, hremoved, List.eraseDups_nil, List.append_nil]
    apply List.filterMap_congr
    intro key hkey
    obtain ⟨earlier, hearlier, -⟩ := exists_chosen? policy hkey
    rw [sharing_concat]
    split
    · rw [hearlier, Option.map_some]
      exact chosen?_concat hpolicy hearlier member
    · rfl
  · have hremoved : [slot member.symbol].removeAll (members.map fun member =>
        slot member.symbol) = [slot member.symbol] := by
      simpa [List.removeAll] using hold
    have hshared : sharing (slot member.symbol) members = [] := by
      simpa [sharing] using hold
    rw [if_neg hold, hremoved, List.eraseDups_cons, List.filter_nil, List.eraseDups_nil,
      List.filterMap_append]
    congr 1
    · apply List.filterMap_congr
      intro key hkey
      have hne : key ≠ slot member.symbol := fun h => hold (h ▸ hkey)
      rw [sharing_concat, if_neg hne]
    · simp [sharing_concat, hshared, chosen?_singleton]

/-! ## All declarations -/

theorem reconcile_eq_merged (policy : MemberPolicy) (members : List Declared) :
    reconcile policy members = merged policy members := by
  rw [reconcile, merged]
  split
  · rfl
  · rename_i hpolicy
    induction members using List.reverseRecOn with
    | nil => rfl
    | append_singleton earlier member ih =>
        rw [List.foldl_append, ih, onePerSlot_concat hpolicy]
        rfl

/-- Candidates are the members that are seen and asked for. -/
theorem candidates_eq_visibleMembers (hierarchy : Hierarchy) (p : Symbol → Bool) :
    hierarchy.candidates p = hierarchy.visibleMembers.filter fun member => p member.symbol := by
  have hown : membersOf true = fun owner : Declared =>
      owner.children.filter fun member => member.symbol.kind.isMember := by
    funext owner
    simp [membersOf]
  have hinherited : membersOf false = fun owner : Declared => owner.children.filter fun member =>
      member.symbol.kind.isMember && !member.symbol.isPrivate := by
    funext owner
    simp [membersOf]
  rw [candidates, visibleMembers, hown, hinherited]

theorem mem_of_mem_merged {policy : MemberPolicy} {members : List Declared} {member : Declared}
    (hmem : member ∈ merged policy members) : member ∈ members := by
  rw [merged] at hmem
  split at hmem
  · exact hmem
  · obtain ⟨key, -, hchosen⟩ := List.mem_filterMap.1 hmem
    exact (List.mem_filter.1 (mem_of_chosen? hchosen)).1

/-- No slot is lost. -/
theorem exists_mem_merged (policy : MemberPolicy) {members : List Declared} {member : Declared}
    (hmem : member ∈ members) :
    ∃ kept ∈ merged policy members, slot kept.symbol = slot member.symbol := by
  rw [merged]
  split
  · exact ⟨member, hmem, rfl⟩
  · have hkey : slot member.symbol ∈ (members.map fun member => slot member.symbol).eraseDups :=
      List.mem_eraseDups.2 (List.mem_map_of_mem hmem)
    obtain ⟨kept, hchosen, hslot⟩ := exists_chosen? policy hkey
    exact ⟨kept, List.mem_filterMap.2 ⟨_, hkey, hchosen⟩, hslot⟩

/-- A private member that is seen belongs to the type itself. -/
theorem mem_children_of_isPrivate {hierarchy : Hierarchy} {member : Declared}
    (hmem : member ∈ hierarchy.visibleMembers) (hprivate : member.symbol.isPrivate = true) :
    member ∈ hierarchy.root.children := by
  rcases List.mem_append.1 hmem with hown | hinherited
  · exact (List.mem_filter.1 hown).1
  · obtain ⟨owner, -, hmember⟩ := List.mem_flatMap.1 hinherited
    have hvisible := (List.mem_filter.1 hmember).2
    simp [hprivate] at hvisible

/-- Over any lookup, the members of a type are the merge of those it sees, with
late-bound types bound to it; a private one is always its own. -/
theorem members_eq_merged (hierarchy : Hierarchy) (policy : MemberPolicy)
    (p : Symbol → Bool) :
    let seen := hierarchy.visibleMembers.filter fun member => p member.symbol
    hierarchy.members policy p = (merged policy seen).map (bind hierarchy.name) ∧
      ∀ member ∈ merged policy seen, member.symbol.isPrivate = true →
        member ∈ hierarchy.root.children := by
  intro seen
  constructor
  · rw [members, candidates_eq_visibleMembers, reconcile_eq_merged]
  · intro member hmem hprivate
    exact mem_children_of_isPrivate (List.mem_filter.1 (mem_of_mem_merged hmem)).1 hprivate

end SymbolIndex.Hierarchy
