import SymbolIndex.Proofs.Hierarchy.Documented
import SymbolIndex.Proofs.Text.Casing

/-!
# Members by name

The members of one name can be asked for, or picked from the list of all
members.  Asking looks at the declarations of that name only; the list has one
entry for each slot, and slots are told apart by full lower-case forms, which
names may share that differ by more than ASCII case.  The two ways never give
different declarations, but the list can miss a name altogether: that is so
where a declaration of another name counts for its slot.
-/

namespace SymbolIndex.Hierarchy

open SymbolIndex.Text

/-- The symbol is of a kind and has a name, compared the way names of the kind are. -/
def goesBy (kind : SymbolKind) (name : String) (member : Symbol) : Bool :=
  member.kind == kind && member.nameEquals name

/-- The slot of the members of a kind and a name. -/
def slotOf (kind : SymbolKind) (name : String) : SymbolKind × String :=
  (kind, if kind.isCaseSensitive then name else lower name)

/-- The entries of a name in the list of all members. -/
def listedAs (hierarchy : Hierarchy) (policy : MemberPolicy) (kind : SymbolKind) (name : String) :
    List Declared :=
  (hierarchy.members policy fun _ => true).filter fun member => goesBy kind name member.symbol

/-- The declarations of a kind whose names share a lower-case form differ in
ASCII case only. -/
def NamesApart (hierarchy : Hierarchy) (kind : SymbolKind) : Prop :=
  ∀ left ∈ hierarchy.visibleMembers, ∀ right ∈ hierarchy.visibleMembers,
    left.symbol.kind = kind → right.symbol.kind = kind →
    lower left.symbol.name = lower right.symbol.name →
    eqIgnoringCase left.symbol.name right.symbol.name = true

/-! ## Names and slots -/

theorem goesBy_iff {kind : SymbolKind} {name : String} {member : Symbol} :
    goesBy kind name member = true ↔
      member.kind = kind ∧
        if kind.isCaseSensitive then member.name = name
        else eqIgnoringCase member.name name = true := by
  rw [goesBy, Bool.and_eq_true, beq_iff_eq]
  apply and_congr_right
  rintro rfl
  rw [Symbol.nameEquals]
  split
  · exact beq_iff_eq
  · exact Iff.rfl

/-- All members of a name share a slot. -/
theorem slot_of_goesBy {kind : SymbolKind} {name : String} {member : Symbol}
    (hgoes : goesBy kind name member = true) : slot member = slotOf kind name := by
  obtain ⟨rfl, hname⟩ := goesBy_iff.1 hgoes
  rw [slot, slotOf]
  split
  · rename_i hsensitive
    rw [if_pos hsensitive] at hname
    rw [hname]
  · rename_i hinsensitive
    rw [if_neg hinsensitive] at hname
    rw [lower_eq_of_eqIgnoringCase hname]

theorem goesBy_self (member : Symbol) : goesBy member.kind member.name member = true := by
  refine goesBy_iff.2 ⟨rfl, ?_⟩
  split
  · rfl
  · exact eqIgnoringCase_refl member.name

/-- Where case matters, a slot is a name. -/
theorem goesBy_of_slot {kind : SymbolKind} {name : String} {member : Symbol}
    (hsensitive : kind.isCaseSensitive = true) (hslot : slot member = slotOf kind name) :
    goesBy kind name member = true := by
  obtain ⟨rfl, hname⟩ := Prod.mk.inj hslot
  rw [if_pos hsensitive, if_pos hsensitive] at hname
  exact goesBy_iff.2 ⟨rfl, by rwa [if_pos hsensitive]⟩

/-- Binding its types does not rename a member. -/
theorem goesBy_bind (className : String) (kind : SymbolKind) (name : String) (member : Declared) :
    goesBy kind name (bind className member).symbol = goesBy kind name member.symbol := by
  rw [bind]
  split
  · rfl
  · rfl

/-! ## One slot -/

/-- What counts among some declarations counts among fewer. -/
theorem chosen?_filter {policy : MemberPolicy} {p : Declared → Bool}
    {declarations : List Declared} {chosen : Declared}
    (hchosen : chosen? policy declarations = some chosen) (hkept : p chosen = true) :
    chosen? policy (declarations.filter p) = some chosen := by
  have hhead : declarations.head? = some chosen →
      (declarations.filter p).head? = some chosen := by
    intro hfirst
    obtain ⟨rest, rfl⟩ := List.head?_eq_some_iff.1 hfirst
    rw [List.filter_cons_of_pos hkept, List.head?_cons]
  cases policy with
  | every => exact hhead hchosen
  | override => exact hhead hchosen
  | base =>
      obtain ⟨front, rfl⟩ := List.getLast?_eq_some_iff.1 hchosen
      rw [List.filter_append, List.filter_cons_of_pos hkept]
      exact List.getLast?_concat
  | documented =>
      apply Option.or_eq_some_iff.2
      rcases Option.or_eq_some_iff.1 hchosen with hfound | ⟨hnone, hfirst⟩
      · obtain ⟨hown, front, back, rfl, hbefore⟩ := List.find?_eq_some_iff_append.1 hfound
        refine Or.inl (List.find?_eq_some_iff_append.2
          ⟨hown, front.filter p, back.filter p, ?_, ?_⟩)
        · rw [List.filter_append, List.filter_cons_of_pos hkept]
        · intro earlier hearlier
          exact hbefore earlier (List.mem_filter.1 hearlier).1
      · refine Or.inr ⟨List.find?_eq_none.2 ?_, hhead hfirst⟩
        intro declared hmem
        exact List.find?_eq_none.1 hnone declared (List.mem_filter.1 hmem).1

/-- Of distinct keys only one has an entry. -/
theorem filterMap_eq_toList {keys : List (SymbolKind × String)} (hdistinct : keys.Nodup)
    {key : SymbolKind × String} {entry : SymbolKind × String → Option Declared}
    (hothers : ∀ other ∈ keys, other ≠ key → entry other = none)
    (habsent : key ∉ keys → entry key = none) : keys.filterMap entry = (entry key).toList := by
  induction keys with
  | nil => rw [habsent List.not_mem_nil]; rfl
  | cons first rest ih =>
      obtain ⟨hnew, hrest⟩ := List.nodup_cons.1 hdistinct
      obtain ⟨hfirst, hlater⟩ := List.forall_mem_cons.1 hothers
      by_cases heq : first = key
      · subst heq
        have hnone : rest.filterMap entry = [] := by
          apply List.filterMap_eq_nil_iff.2
          intro other hmem
          exact hlater other hmem fun h => hnew (h ▸ hmem)
        rw [List.filterMap_cons, hnone]
        cases entry first <;> rfl
      · rw [List.filterMap_cons_none (hfirst heq)]
        refine ih hrest hlater fun hnot => habsent ?_
        exact List.not_mem_cons_of_ne_of_not_mem (Ne.symm heq) hnot

theorem chosen?_eq_none_iff {policy : MemberPolicy} {declarations : List Declared} :
    chosen? policy declarations = none ↔ declarations = [] := by
  cases policy with
  | every => exact List.head?_eq_none_iff
  | override => exact List.head?_eq_none_iff
  | base => exact List.getLast?_eq_none_iff
  | documented =>
      rw [chosen?, Option.or_eq_none_iff, List.head?_eq_none_iff, and_iff_right_iff_imp]
      rintro rfl
      rfl

/-- All members of a name are found in its slot. -/
theorem filter_sharing_slotOf (kind : SymbolKind) (name : String) (members : List Declared) :
    (sharing (slotOf kind name) members).filter (fun member => goesBy kind name member.symbol) =
      members.filter fun member => goesBy kind name member.symbol := by
  rw [sharing, List.filter_filter]
  apply List.filter_congr
  intro member _
  cases hgoes : goesBy kind name member.symbol with
  | false => rfl
  | true => simp [slot_of_goesBy hgoes]

/-- The entry of a name is the one that counts for its slot, if that goes by the name. -/
theorem filter_onePerSlot (policy : MemberPolicy) (members : List Declared) (kind : SymbolKind)
    (name : String) :
    (onePerSlot policy members).filter (fun member => goesBy kind name member.symbol) =
      ((chosen? policy (sharing (slotOf kind name) members)).filter
        fun member => goesBy kind name member.symbol).toList := by
  rw [onePerSlot, List.filter_filterMap]
  refine filterMap_eq_toList (eraseDups_spec _).2 ?_ ?_
  · intro other _ hne
    rw [Option.filter_eq_none_iff]
    intro chosen hchosen hgoes
    have hslot : slot chosen.symbol = other := by
      simpa using (List.mem_filter.1 (mem_of_chosen? hchosen)).2
    exact hne (hslot.symm.trans (slot_of_goesBy hgoes))
  · intro habsent
    have hnone : sharing (slotOf kind name) members = [] := by
      rw [List.mem_eraseDups] at habsent
      simpa [sharing] using habsent
    rw [hnone, chosen?_eq_none_iff.2 rfl, Option.filter_none]

/-- The declarations of one name have one entry at most. -/
theorem onePerSlot_of_goesBy (policy : MemberPolicy) {members : List Declared} {kind : SymbolKind}
    {name : String} (hall : ∀ member ∈ members, goesBy kind name member.symbol = true) :
    onePerSlot policy members = (chosen? policy members).toList := by
  have hslot : sharing (slotOf kind name) members = members := by
    apply List.filter_eq_self.2
    intro member hmem
    exact decide_eq_true (slot_of_goesBy (hall member hmem))
  have hentries := filter_onePerSlot policy members kind name
  have hkept : (onePerSlot policy members).filter (fun member =>
      goesBy kind name member.symbol) = onePerSlot policy members := by
    apply List.filter_eq_self.2
    intro member hmem
    obtain ⟨key, -, hchosen⟩ := List.mem_filterMap.1 hmem
    exact hall member (List.mem_filter.1 (mem_of_chosen? hchosen)).1
  have hcounts : (chosen? policy members).filter (fun member => goesBy kind name member.symbol) =
      chosen? policy members := by
    cases hchosen : chosen? policy members with
    | none => rfl
    | some member => exact Option.filter_some_pos (hall member (mem_of_chosen? hchosen))
  rw [hkept, hslot, hcounts] at hentries
  exact hentries

/-! ## Asking and listing -/

section

variable {hierarchy : Hierarchy} {policy : MemberPolicy} {kind : SymbolKind} {name : String}

/-- The declarations that are seen of the slot of a name. -/
def rivals (hierarchy : Hierarchy) (kind : SymbolKind) (name : String) : List Declared :=
  sharing (slotOf kind name) hierarchy.visibleMembers

theorem membersNamed_eq (hierarchy : Hierarchy) (policy : MemberPolicy) (kind : SymbolKind)
    (name : String) :
    hierarchy.membersNamed policy kind name =
      (merged policy (hierarchy.visibleMembers.filter fun member =>
        goesBy kind name member.symbol)).map (bind hierarchy.name) :=
  (members_eq_merged hierarchy policy (goesBy kind name)).1

theorem listedAs_eq (hierarchy : Hierarchy) (policy : MemberPolicy) (kind : SymbolKind)
    (name : String) :
    hierarchy.listedAs policy kind name =
      ((merged policy hierarchy.visibleMembers).filter fun member =>
        goesBy kind name member.symbol).map (bind hierarchy.name) := by
  have hall : hierarchy.visibleMembers.filter (fun _ => true) = hierarchy.visibleMembers :=
    List.filter_true _
  rw [listedAs, (members_eq_merged hierarchy policy fun _ => true).1, hall, List.filter_map]
  simp only [Function.comp_def, goesBy_bind]

/-- The list has an entry of a name exactly if what counts for the slot goes by it. -/
theorem listedAs_of_reconciled (hpolicy : policy ≠ .every) :
    hierarchy.listedAs policy kind name =
      ((chosen? policy (hierarchy.rivals kind name)).filter fun member =>
        goesBy kind name member.symbol).toList.map (bind hierarchy.name) := by
  rw [listedAs_eq, merged, if_neg hpolicy, filter_onePerSlot]
  rfl

/-- A question for a name is answered from the declarations of that name only. -/
theorem membersNamed_of_reconciled (hpolicy : policy ≠ .every) :
    hierarchy.membersNamed policy kind name =
      (chosen? policy ((hierarchy.rivals kind name).filter fun member =>
        goesBy kind name member.symbol)).toList.map (bind hierarchy.name) := by
  rw [membersNamed_eq, merged, if_neg hpolicy, rivals, filter_sharing_slotOf]
  congr 1
  apply onePerSlot_of_goesBy
  intro member hmem
  exact (List.mem_filter.1 hmem).2

/-- What counts for a slot is seen, and of the slot. -/
theorem slot_of_chosen? {chosen : Declared}
    (hchosen : chosen? policy (hierarchy.rivals kind name) = some chosen) :
    chosen ∈ hierarchy.visibleMembers ∧ slot chosen.symbol = slotOf kind name := by
  obtain ⟨hvisible, hslot⟩ := List.mem_filter.1 (mem_of_chosen? hchosen)
  exact ⟨hvisible, of_decide_eq_true hslot⟩

/-- Where another name counts for the slot of a name, the list misses the name. -/
theorem listedAs_eq_nil (hpolicy : policy ≠ .every) {chosen : Declared}
    (hchosen : chosen? policy (hierarchy.rivals kind name) = some chosen)
    (hother : goesBy kind name chosen.symbol = false) :
    hierarchy.listedAs policy kind name = [] := by
  have hmissed : (some chosen).filter (fun member => goesBy kind name member.symbol) = none :=
    Option.filter_some_neg hother
  rw [listedAs_of_reconciled hpolicy, hchosen, hmissed]
  rfl

/-- The question and the list agree where the declaration that counts has the name. -/
theorem membersNamed_eq_of_goesBy (hpolicy : policy ≠ .every) {chosen : Declared}
    (hchosen : chosen? policy (hierarchy.rivals kind name) = some chosen)
    (hgoes : goesBy kind name chosen.symbol = true) :
    hierarchy.membersNamed policy kind name = hierarchy.listedAs policy kind name := by
  have hlisted : (some chosen).filter (fun member => goesBy kind name member.symbol) =
      some chosen := Option.filter_some_pos hgoes
  rw [membersNamed_of_reconciled hpolicy, listedAs_of_reconciled hpolicy, hchosen, hlisted,
    chosen?_filter hchosen hgoes]

/-- A question for a name has no answer only if nothing of that name is seen. -/
theorem membersNamed_eq_nil_iff (hpolicy : policy ≠ .every) :
    hierarchy.membersNamed policy kind name = [] ↔
      ∀ member ∈ hierarchy.visibleMembers, goesBy kind name member.symbol = false := by
  rw [membersNamed_of_reconciled hpolicy, List.map_eq_nil_iff, Option.toList_eq_nil_iff,
    chosen?_eq_none_iff, rivals, filter_sharing_slotOf, List.filter_eq_nil_iff]
  simp only [Bool.not_eq_true]

/-- Asking and listing agree on a name exactly if what counts for the slot of the
name goes by it, or no declaration does. -/
theorem membersNamed_eq_listedAs_iff (hpolicy : policy ≠ .every) :
    hierarchy.membersNamed policy kind name = hierarchy.listedAs policy kind name ↔
      ∀ chosen, chosen? policy (hierarchy.rivals kind name) = some chosen →
        ∀ member ∈ hierarchy.visibleMembers, goesBy kind name member.symbol = true →
          goesBy kind name chosen.symbol = true := by
  constructor
  · intro hagree chosen hchosen member hvisible hgoes
    by_contra hother
    rw [listedAs_eq_nil hpolicy hchosen (eq_false_of_ne_true hother),
      membersNamed_eq_nil_iff hpolicy] at hagree
    rw [hagree member hvisible] at hgoes
    cases hgoes
  · intro hcounts
    cases hchosen : chosen? policy (hierarchy.rivals kind name) with
    | none =>
        rw [membersNamed_of_reconciled hpolicy, listedAs_of_reconciled hpolicy, hchosen,
          chosen?_eq_none_iff.1 hchosen, List.filter_nil, chosen?_eq_none_iff.2 rfl,
          Option.filter_none]
    | some chosen =>
        by_cases hgoes : goesBy kind name chosen.symbol = true
        · exact membersNamed_eq_of_goesBy hpolicy hchosen hgoes
        · rw [listedAs_eq_nil hpolicy hchosen (eq_false_of_ne_true hgoes),
            membersNamed_eq_nil_iff hpolicy]
          intro member hvisible
          apply eq_false_of_ne_true
          intro hmember
          exact hgoes (hcounts chosen hchosen member hvisible hmember)

/-! ## Names that share a slot -/

/-- A member of a name is written like it but for the case of ASCII letters. -/
theorem asciiLower_of_goesBy (hfolds : kind.isCaseSensitive = false) {member : Symbol}
    (hgoes : goesBy kind name member = true) :
    asciiLower member.name.toList = asciiLower name.toList := by
  obtain ⟨-, hname⟩ := goesBy_iff.1 hgoes
  rw [hfolds] at hname
  exact eqIgnoringCase_iff.1 hname

/-- If no two names share a slot, what counts for a slot has all names of the slot. -/
theorem NamesApart.goesBy (hapart : hierarchy.NamesApart kind)
    (hfolds : kind.isCaseSensitive = false) {chosen member : Declared}
    (hchosen : chosen? policy (hierarchy.rivals kind name) = some chosen)
    (hvisible : member ∈ hierarchy.visibleMembers)
    (hgoes : Hierarchy.goesBy kind name member.symbol = true) :
    Hierarchy.goesBy kind name chosen.symbol = true := by
  obtain ⟨hseen, hslot⟩ := slot_of_chosen? hchosen
  obtain ⟨hkind, hlower⟩ := Prod.mk.inj (hslot.trans (slot_of_goesBy hgoes).symm)
  have hmember : member.symbol.kind = kind := (goesBy_iff.1 hgoes).1
  rw [hkind, hmember, hfolds] at hlower
  have hsame := hapart chosen hseen member hvisible (hkind.trans hmember) hmember hlower
  have hname : asciiLower chosen.symbol.name.toList = asciiLower name.toList :=
    (eqIgnoringCase_iff.1 hsame).trans (asciiLower_of_goesBy hfolds hgoes)
  refine goesBy_iff.2 ⟨hkind.trans hmember, ?_⟩
  rw [hfolds]
  exact eqIgnoringCase_iff.2 hname

/-- If asking and listing agree on all names, what counts for a slot has the names
of all its declarations, so they have one name. -/
theorem namesApart_of_agree (hpolicy : policy ≠ .every) (hfolds : kind.isCaseSensitive = false)
    (hagree : ∀ name,
      hierarchy.membersNamed policy kind name = hierarchy.listedAs policy kind name) :
    hierarchy.NamesApart kind := by
  intro left hleft right hright hleftKind hrightKind hlower
  have hslots : slotOf kind left.symbol.name = slotOf kind right.symbol.name := by
    simp [slotOf, hfolds, hlower]
  have hownLeft : goesBy kind left.symbol.name left.symbol = true :=
    hleftKind ▸ goesBy_self left.symbol
  have hownRight : goesBy kind right.symbol.name right.symbol = true :=
    hrightKind ▸ goesBy_self right.symbol
  have hrival : left ∈ hierarchy.rivals kind left.symbol.name :=
    List.mem_filter.2 ⟨hleft, decide_eq_true (slot_of_goesBy hownLeft)⟩
  obtain ⟨chosen, hchosen⟩ := Option.ne_none_iff_exists'.1 fun hnone =>
    List.ne_nil_of_mem hrival ((@chosen?_eq_none_iff policy _).1 hnone)
  have hchosenRight : chosen? policy (hierarchy.rivals kind right.symbol.name) = some chosen := by
    rw [rivals, ← hslots]
    exact hchosen
  have hasLeft := (membersNamed_eq_listedAs_iff hpolicy).1 (hagree _) chosen hchosen
    left hleft hownLeft
  have hasRight := (membersNamed_eq_listedAs_iff hpolicy).1 (hagree _) chosen hchosenRight
    right hright hownRight
  apply eqIgnoringCase_iff.2
  exact (asciiLower_of_goesBy hfolds hasLeft).symm.trans (asciiLower_of_goesBy hfolds hasRight)

end

/-- Asking for the members of a name gives what the list of all members has of
the name, unless the list misses it because another name counts for its slot.
The two agree on all names of a kind exactly if every declaration counts, or case
matters, or no two names of the kind share a slot. -/
theorem membersNamed_eq_listedAs (hierarchy : Hierarchy) (policy : MemberPolicy)
    (kind : SymbolKind) :
    (∀ name, hierarchy.membersNamed policy kind name = hierarchy.listedAs policy kind name ∨
      hierarchy.listedAs policy kind name = [] ∧
        ∃ chosen, chosen? policy (hierarchy.rivals kind name) = some chosen ∧
          goesBy kind name chosen.symbol = false) ∧
    ((∀ name, hierarchy.membersNamed policy kind name = hierarchy.listedAs policy kind name) ↔
      policy = .every ∨ kind.isCaseSensitive = true ∨ hierarchy.NamesApart kind) := by
  by_cases hpolicy : policy = .every
  · have hagree : ∀ name,
        hierarchy.membersNamed policy kind name = hierarchy.listedAs policy kind name := by
      intro name
      rw [membersNamed_eq, listedAs_eq, merged, if_pos hpolicy, merged, if_pos hpolicy]
    exact ⟨fun name => Or.inl (hagree name), iff_of_true hagree (Or.inl hpolicy)⟩
  · constructor
    · intro name
      rw [or_iff_not_imp_left, membersNamed_eq_listedAs_iff hpolicy]
      intro hdiffer
      push Not at hdiffer
      obtain ⟨chosen, hchosen, -, -, -, hother⟩ := hdiffer
      have hother := eq_false_of_ne_true hother
      exact ⟨listedAs_eq_nil hpolicy hchosen hother, chosen, hchosen, hother⟩
    · cases hfolds : kind.isCaseSensitive with
      | true =>
          refine iff_of_true (fun name => ?_) (Or.inr (Or.inl rfl))
          apply (membersNamed_eq_listedAs_iff hpolicy).2
          intro chosen hchosen _ _ _
          exact goesBy_of_slot hfolds (slot_of_chosen? hchosen).2
      | false =>
          constructor
          · exact fun hagree => Or.inr (Or.inr (namesApart_of_agree hpolicy hfolds hagree))
          · rintro (hevery | htrue | hapart) name
            · exact absurd hevery hpolicy
            · cases htrue
            · apply (membersNamed_eq_listedAs_iff hpolicy).2
              intro chosen hchosen member hvisible hgoes
              exact hapart.goesBy hfolds hchosen hvisible hgoes

/-- In ASCII the two ways of folding case are one. -/
theorem namesApart_of_ascii {hierarchy : Hierarchy} {kind : SymbolKind}
    (hascii : ∀ member ∈ hierarchy.visibleMembers, member.symbol.kind = kind →
      ∀ c ∈ member.symbol.name.toList, c.toNat < 128) : hierarchy.NamesApart kind := by
  intro left hleft right hright hleftKind hrightKind hlower
  have hchars := congrArg String.toList hlower
  rw [toList_lower, toList_lower, lowerChars_of_ascii (hascii left hleft hleftKind),
    lowerChars_of_ascii (hascii right hright hrightKind)] at hchars
  exact eqIgnoringCase_iff.2 hchars

/-! ## Two names in one slot -/

def accentedMethod (name : String) : Symbol :=
  { kind := .method, name := name }

def accentedBase : Declared :=
  ⟨none, { kind := .classType, name := "B", children := [accentedMethod "é"] }⟩

/-- A class that declares the method `É`, and extends one that declares the method `é`. -/
def accented : Hierarchy where
  lookup := ⟨[accentedBase], fun name => if name = "B" then [accentedBase] else []⟩
  root :=
    ⟨none, { kind := .classType
             name := "A"
             associated := [⟨.classType, "B"⟩]
             children := [accentedMethod "É"] }⟩

theorem members_accented (policy : MemberPolicy) (p : Symbol → Bool) :
    accented.members policy p = accented.directMembers policy p :=
  members_eq_directMembers (by decide +kernel) policy p

/-- The two names are different, and both are found when they are asked for, but
the list of the members has the one of the class only. -/
theorem listing_misses_accented_name :
    eqIgnoringCase "É" "é" = false ∧
      (accented.membersNamed .override .method "é").map (·.symbol.name) = ["é"] ∧
      (accented.members .override fun _ => true).map (·.symbol.name) = ["É"] ∧
      accented.membersNamed .override .method "é" ≠ accented.listedAs .override .method "é" := by
  have hnamed : (accented.membersNamed .override .method "é").map (·.symbol.name) = ["é"] := by
    rw [membersNamed, members_accented]
    decide +kernel
  have hall : (accented.members .override fun _ => true).map (·.symbol.name) = ["É"] := by
    rw [members_accented]
    decide +kernel
  have hlisted : (accented.listedAs .override .method "é").map (·.symbol.name) = [] := by
    rw [listedAs, members_accented]
    decide +kernel
  refine ⟨by decide, hnamed, hall, fun hagree => ?_⟩
  rw [hagree, hlisted] at hnamed
  cases hnamed

end SymbolIndex.Hierarchy
