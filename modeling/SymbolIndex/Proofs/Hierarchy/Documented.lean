import SymbolIndex.Proofs.Hierarchy.Merging

/-!
# Documentations of members

Where the policy looks for documentations, a declaration without one of its own
gives way.  As soon as one declaration of a member has a documentation of its
own, so has the one that counts, wherever the two stand among the others.
-/

namespace SymbolIndex.Hierarchy

open SymbolIndex.Text

/-- Only the type of a member is bound. -/
theorem slot_bind (className : String) (member : Declared) :
    slot (bind className member).symbol = slot member.symbol := by
  rw [bind]
  split
  · rfl
  · rfl

/-- If one of the declarations has its own documentation, so has the chosen one. -/
theorem ownDoc_of_chosen? {declarations : List Declared} {documented chosen : Declared}
    (hmem : documented ∈ declarations) (hown : ownDoc documented.symbol = true)
    (hchosen : chosen? .documented declarations = some chosen) : ownDoc chosen.symbol = true := by
  have hfound : (declarations.find? fun declared => ownDoc declared.symbol).isSome = true :=
    List.find?_isSome.2 ⟨documented, hmem, hown⟩
  obtain ⟨first, hfirst⟩ := Option.isSome_iff_exists.1 hfound
  rw [chosen?, hfirst, Option.some_or] at hchosen
  rw [← Option.some.inj hchosen]
  simpa using List.find?_some hfirst

/-- The entries of a slot, of which there is one at least, come from declarations
with a documentation of their own once some declaration of the slot has one. -/
theorem ownDoc_of_mem_members {hierarchy : Hierarchy} {p : Symbol → Bool} {documented : Declared}
    (hvisible : documented ∈ hierarchy.visibleMembers) (hp : p documented.symbol = true)
    (hown : ownDoc documented.symbol = true) :
    (∃ kept ∈ hierarchy.members .documented p, slot kept.symbol = slot documented.symbol) ∧
      ∀ kept ∈ hierarchy.members .documented p, slot kept.symbol = slot documented.symbol →
        ∃ declared ∈ hierarchy.visibleMembers, p declared.symbol = true ∧
          bind hierarchy.name declared = kept ∧ ownDoc declared.symbol = true := by
  have hseen : documented ∈ hierarchy.visibleMembers.filter fun member => p member.symbol :=
    List.mem_filter.2 ⟨hvisible, hp⟩
  rw [members, candidates_eq_visibleMembers, reconcile_eq_merged]
  constructor
  · obtain ⟨kept, hkept, hslot⟩ := exists_mem_merged .documented hseen
    exact ⟨bind hierarchy.name kept, List.mem_map_of_mem hkept, by rw [slot_bind, hslot]⟩
  · intro kept hkept hslot
    obtain ⟨declared, hmerged, rfl⟩ := List.mem_map.1 hkept
    obtain ⟨hmember, hpassed⟩ := List.mem_filter.1 (mem_of_mem_merged hmerged)
    have hchoice : MemberPolicy.documented ≠ .every := by decide
    rw [merged, if_neg hchoice] at hmerged
    obtain ⟨key, -, hchosen⟩ := List.mem_filterMap.1 hmerged
    -- What is chosen for a slot is of that slot, so the documented one is among the choices.
    have hkey : slot declared.symbol = key := by
      simpa using (List.mem_filter.1 (mem_of_chosen? hchosen)).2
    have hshared : documented ∈ sharing key
        (hierarchy.visibleMembers.filter fun member => p member.symbol) := by
      rw [slot_bind, hkey] at hslot
      exact List.mem_filter.2 ⟨hseen, by simpa using hslot.symm⟩
    exact ⟨declared, hmember, hpassed, rfl, ownDoc_of_chosen? hshared hown hchosen⟩

/-- Where another declaration of its slot has a documentation of its own, the
symbol is not what counts: the member comes from one that has. -/
def YieldsIn (hierarchy : Hierarchy) (symbol : Symbol) : Prop :=
  ∀ p : Symbol → Bool, ∀ base ∈ hierarchy.visibleMembers, p base.symbol = true →
    slot base.symbol = slot symbol → ownDoc base.symbol = true →
    (∃ kept ∈ hierarchy.members .documented p, slot kept.symbol = slot symbol) ∧
      ∀ kept ∈ hierarchy.members .documented p, slot kept.symbol = slot symbol →
        ∃ declared ∈ hierarchy.visibleMembers, p declared.symbol = true ∧
          bind hierarchy.name declared = kept ∧ ownDoc declared.symbol = true ∧
          declared.symbol ≠ symbol

theorem yieldsIn_of_ownDoc_eq_false {symbol : Symbol} (hown : ownDoc symbol = false)
    (hierarchy : Hierarchy) : hierarchy.YieldsIn symbol := by
  intro p base hvisible hp hslot hbase
  obtain ⟨hsome, hall⟩ := ownDoc_of_mem_members hvisible hp hbase
  rw [hslot] at hsome hall
  refine ⟨hsome, fun kept hkept hkeptSlot => ?_⟩
  obtain ⟨declared, hdeclared, hpassed, hbind, hdocumented⟩ := hall kept hkept hkeptSlot
  refine ⟨declared, hdeclared, hpassed, hbind, hdocumented, ?_⟩
  rintro rfl
  rw [hown] at hdocumented
  cases hdocumented

/-! ## One level of bases -/

/-- Where nothing is referred to, nothing is reached. -/
theorem reach_eq_nil (find : String → List Declared) (names met : List String)
    {queue : List Declared} (hnone : ∀ declared ∈ queue, declared.symbol.associated = []) :
    reach find names met queue = [] := by
  induction queue with
  | nil => rw [reach]
  | cons current rest ih =>
      obtain ⟨hcurrent, hrest⟩ := List.forall_mem_cons.1 hnone
      have hnothing : discover find names met current.symbol.associated = (met, []) := by
        rw [hcurrent]
        rfl
      rw [reach, hnothing, List.append_nil, ih hrest]
      rfl

/-- The declarations of the names that the root refers to. -/
def direct (hierarchy : Hierarchy) : List Declared :=
  (discover hierarchy.lookup.find hierarchy.referredNames [lower hierarchy.name]
    hierarchy.root.symbol.associated).2

/-- The members where nothing is inherited but from those declarations. -/
def directMembers (hierarchy : Hierarchy) (policy : MemberPolicy) (p : Symbol → Bool) :
    List Declared :=
  let bases := hierarchy.direct.filter (fun declared => !isTrait declared) ++
    hierarchy.direct.filter isTrait
  (reconcile policy ((membersOf true hierarchy.root ++ bases.flatMap (membersOf false)).filter
    fun member => p member.symbol)).map (bind hierarchy.name)

/-- If the types that the root refers to refer to no others, they are all that it
inherits from. -/
theorem members_eq_directMembers {hierarchy : Hierarchy}
    (hnone : ∀ declared ∈ hierarchy.direct, declared.symbol.associated = [])
    (policy : MemberPolicy) (p : Symbol → Bool) :
    hierarchy.members policy p = hierarchy.directMembers policy p := by
  have hreached : hierarchy.reached = hierarchy.direct := by
    rw [direct] at hnone ⊢
    rw [reached, reach, List.nil_append, reach_eq_nil _ _ _ hnone, List.append_nil]
  rw [members, candidates, associated, hreached]
  rfl

end SymbolIndex.Hierarchy
