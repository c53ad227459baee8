import SymbolIndex.Proofs.Equality
import SymbolIndex.Proofs.Hierarchy.Merging
import SymbolIndex.Proofs.SymbolStore.Search

/-!
# Resolution of references

What a reference refers to, told by declarations and not by searches.  A global
name leads to the declarations of the name, a member to the members of that name
which the classes of its scope see.  The classes found under a name stay
together: names that differ in the case of ASCII letters only have the same
ones, and where one of them is inherited from, so are the others.
-/

namespace SymbolIndex

namespace Hierarchy

/-! ## What is inherited from -/

/-- Whatever is discovered comes with all that is found under one name. -/
theorem exists_find_of_mem_discover {find : String → List Declared} {names met : List String}
    {ids : List SymbolId} {declared : Declared}
    (hmem : declared ∈ (discover find names met ids).2) :
    ∃ name, declared ∈ find name ∧ find name ⊆ (discover find names met ids).2 := by
  induction ids generalizing met with
  | nil => exact absurd hmem List.not_mem_nil
  | cons id rest ih =>
      rw [discover] at hmem ⊢
      split at hmem
      · rename_i hnew
        rw [if_pos hnew]
        rcases List.mem_append.1 hmem with hhere | hlater
        · exact ⟨id.name, hhere, List.subset_append_left _ _⟩
        · obtain ⟨name, hfound, hsubset⟩ := ih hlater
          exact ⟨name, hfound, List.Subset.trans hsubset (List.subset_append_right _ _)⟩
      · rename_i hold
        rw [if_neg hold]
        exact ih hmem

/-- What is reached was found under some name, with all else of that name. -/
theorem exists_find_of_mem_reach {find : String → List Declared} {names met : List String}
    {queue : List Declared} {declared : Declared}
    (hmem : declared ∈ reach find names met queue) :
    ∃ name, declared ∈ find name ∧ find name ⊆ reach find names met queue := by
  fun_induction reach find names met queue with
  | case1 => exact absurd hmem List.not_mem_nil
  | case2 met current queue discovery ih =>
      rcases List.mem_append.1 hmem with hhere | hlater
      · obtain ⟨name, hfound, hsubset⟩ := exists_find_of_mem_discover hhere
        exact ⟨name, hfound, List.Subset.trans hsubset (List.subset_append_left _ _)⟩
      · obtain ⟨name, hfound, hsubset⟩ := ih hlater
        exact ⟨name, hfound, List.Subset.trans hsubset (List.subset_append_right _ _)⟩

theorem mem_associated_iff {hierarchy : Hierarchy} {declared : Declared} :
    declared ∈ hierarchy.associated ↔ declared ∈ hierarchy.reached := by
  rw [associated, List.mem_append, List.mem_filter, List.mem_filter]
  cases isTrait declared <;> simp

/-- With a type the hierarchy has all that are found under the same name. -/
theorem exists_find_of_mem_associated {hierarchy : Hierarchy} {declared : Declared}
    (hmem : declared ∈ hierarchy.associated) :
    ∃ name, declared ∈ hierarchy.lookup.find name ∧
      hierarchy.lookup.find name ⊆ hierarchy.associated := by
  obtain ⟨name, hfound, hsubset⟩ := exists_find_of_mem_reach (mem_associated_iff.1 hmem)
  exact ⟨name, hfound, fun other hother => mem_associated_iff.2 (hsubset hother)⟩

/-! ## Members of a name -/

/-- Binding changes the type of a member only. -/
theorem symbol_bind (className : String) (member : Declared) :
    (bind className member).symbol =
      { member.symbol with type := TypeExpr.rebind member.symbol.type className } := by
  rw [bind]
  split
  · rename_i hsame
    rw [hsame]
    cases member.symbol
    rfl
  · rfl

theorem bind_eq_of_origin {className : String} {member : Declared}
    (horigin : (bind className member).origin.isSome = true) :
    bind className member = member := by
  rw [bind] at horigin ⊢
  split
  · rfl
  · rename_i hchanged
    rw [if_neg hchanged] at horigin
    cases horigin

theorem exists_of_mem_membersNamed {hierarchy : Hierarchy} {policy : MemberPolicy}
    {kind : SymbolKind} {name : String} {declared : Declared}
    (hmem : declared ∈ hierarchy.membersNamed policy kind name) :
    ∃ member ∈ hierarchy.visibleMembers, member.symbol.kind = kind ∧
      member.symbol.nameEquals name = true ∧ bind hierarchy.name member = declared := by
  rw [membersNamed, members, reconcile_eq_merged, candidates_eq_visibleMembers] at hmem
  obtain ⟨member, hmerged, hbind⟩ := List.mem_map.1 hmem
  obtain ⟨hvisible, hmatch⟩ := List.mem_filter.1 (mem_of_mem_merged hmerged)
  rw [Bool.and_eq_true, beq_iff_eq] at hmatch
  exact ⟨member, hvisible, hmatch.1, hmatch.2, hbind⟩

/-- A declaration that is seen gives its name a member under every policy. -/
theorem membersNamed_ne_nil {hierarchy : Hierarchy} (policy : MemberPolicy) {kind : SymbolKind}
    {name : String} {member : Declared} (hvisible : member ∈ hierarchy.visibleMembers)
    (hkind : member.symbol.kind = kind) (hname : member.symbol.nameEquals name = true) :
    hierarchy.membersNamed policy kind name ≠ [] := by
  have hseen : member ∈ hierarchy.visibleMembers.filter fun member =>
      member.symbol.kind == kind && member.symbol.nameEquals name :=
    List.mem_filter.2 ⟨hvisible, by simp [hkind, hname]⟩
  obtain ⟨kept, hkept, -⟩ := exists_mem_merged policy hseen
  rw [membersNamed, members, reconcile_eq_merged, candidates_eq_visibleMembers]
  exact List.ne_nil_of_mem (List.mem_map_of_mem hkept)

/-- Where every declaration counts, all of a name that are seen are its members. -/
theorem mem_membersNamed_every {hierarchy : Hierarchy} {kind : SymbolKind} {name : String}
    {member : Declared} (hvisible : member ∈ hierarchy.visibleMembers)
    (hkind : member.symbol.kind = kind) (hname : member.symbol.nameEquals name = true) :
    bind hierarchy.name member ∈ hierarchy.membersNamed .every kind name := by
  rw [membersNamed, members, reconcile_eq_merged, candidates_eq_visibleMembers]
  refine List.mem_map.2 ⟨member, List.mem_filter.2 ⟨hvisible, ?_⟩, rfl⟩
  simp [hkind, hname]

end Hierarchy

namespace SymbolStore

open SymbolIndex.Text

/-! ## Class-like names -/

/-- A name as class-like names are looked up. -/
def withoutBackslashes (name : String) : String :=
  String.ofList (name.toList.dropWhile (· == '\\'))

theorem eqIgnoringCase_withoutBackslashes {left right : String}
    (heq : eqIgnoringCase left right = true) :
    eqIgnoringCase (withoutBackslashes left) (withoutBackslashes right) = true := by
  have hdrop : ∀ chars : List Char, asciiLower (chars.dropWhile (· == '\\')) =
      (asciiLower chars).dropWhile (· == '\\') := by
    intro chars
    rw [asciiLower, asciiLower, List.dropWhile_map]
    congr 2
    funext c
    have hiff : c.toLower = '\\' ↔ c = '\\' := toLower_eq_iff (by decide)
    simp [← hiff]
  rw [eqIgnoringCase_iff] at heq ⊢
  simp only [withoutBackslashes, String.toList_ofList, hdrop, heq]

theorem withoutBackslashes_idem (name : String) :
    withoutBackslashes (withoutBackslashes name) = withoutBackslashes name := by
  simp [withoutBackslashes, List.dropWhile_idempotent]

theorem isCaseSensitive_of_isClassLike {kind : SymbolKind} (hclass : kind.isClassLike = true) :
    kind.isCaseSensitive = false := by
  revert hclass
  cases kind <;> decide

theorem nameEquals_of_isClassLike {symbol : Symbol} (hkind : symbol.kind.isClassLike = true)
    (name : String) : symbol.nameEquals name = eqIgnoringCase symbol.name name := by
  rw [Symbol.nameEquals, isCaseSensitive_of_isClassLike hkind, if_neg Bool.false_ne_true]

/-- Only an empty name equals an empty one. -/
theorem name_ne_empty_of_nameEquals {symbol : Symbol} {name : String}
    (hequals : symbol.nameEquals name = true) (hname : name ≠ "") : symbol.name ≠ "" := by
  intro hempty
  rw [Symbol.nameEquals, hempty] at hequals
  split at hequals
  · exact hname (beq_iff_eq.1 hequals).symm
  · rw [eqIgnoringCase_iff] at hequals
    have hnil : name.toList = [] := List.map_eq_nil_iff.1 hequals.symm
    exact hname (String.toList_eq_nil_iff.1 hnil)

/-- Names that differ in case only have the same class-like declarations. -/
theorem findDeclared_classLike_congr (store : SymbolStore) {left right : String}
    (heq : eqIgnoringCase left right = true) :
    store.findDeclared left (·.kind.isClassLike) =
      store.findDeclared right (·.kind.isClassLike) := by
  rw [findDeclared, findDeclared, NameIndex.find_eq_under, NameIndex.find_eq_under,
    lower_eq_of_eqIgnoringCase heq]
  congr 1
  apply List.filter_congr
  intro declared _
  cases hkind : declared.symbol.kind.isClassLike with
  | false => simp
  | true =>
      rw [nameEquals_of_isClassLike hkind, nameEquals_of_isClassLike hkind, eqIgnoringCase,
        eqIgnoringCase, eqIgnoringCase_iff.1 heq]

theorem classLike_congr (store : SymbolStore) {left right : String}
    (heq : eqIgnoringCase left right = true) : store.classLike left = store.classLike right :=
  store.findDeclared_classLike_congr (eqIgnoringCase_withoutBackslashes heq)

/-- What is found has the name, and passes the test. -/
theorem of_mem_findDeclared {store : SymbolStore} {text : String} {p : Symbol → Bool}
    {declared : Declared} (hmem : declared ∈ store.findDeclared text p) :
    declared.symbol.nameEquals text = true ∧ p declared.symbol = true := by
  have hfound := Declared.distinct_subset _ hmem
  exact Bool.and_eq_true_iff.1 (List.mem_filter.1 hfound).2

/-- A class that is found is found together with the others of its name. -/
theorem classLike_of_mem {store : SymbolStore} {name : String} {declared : Declared}
    (hmem : declared ∈ store.classLike name) :
    store.classLike declared.symbol.name = store.classLike name := by
  obtain ⟨hname, hkind⟩ := of_mem_findDeclared hmem
  rw [nameEquals_of_isClassLike hkind] at hname
  have hsame := eqIgnoringCase_withoutBackslashes hname
  rw [← withoutBackslashes, withoutBackslashes_idem] at hsame
  exact store.findDeclared_classLike_congr hsame

/-! ## Searches by full name -/

/-- In a sound store all declarations of a name are found, and no others. -/
theorem Sound.mem_findDeclared_iff {store : SymbolStore} (hsound : store.Sound) {text : String}
    {p : Symbol → Bool} {declared : Declared} :
    declared ∈ store.findDeclared text p ↔
      declared ∈ store.declarations ∧ declared.symbol.nameEquals text = true ∧
        p declared.symbol = true := by
  rw [findDeclared, (hsound.distinct_perm (hsound.mem_find_iff text p)).mem_iff,
    List.mem_filter, Bool.and_eq_true]

theorem Sound.mem_find_iff_mem_allSymbols {store : SymbolStore} (hsound : store.Sound)
    {text : String} {p : Symbol → Bool} {symbol : Symbol} :
    symbol ∈ store.find text p ↔
      symbol ∈ store.allSymbols ∧ symbol.isIndexable = true ∧
        symbol.nameEquals text = true ∧ p symbol = true := by
  rw [(hsound.find_perm text p).mem_iff, List.mem_filter, Bool.and_eq_true, Bool.and_eq_true]

/-! ## Classes and what they inherit from -/

section

variable {store : SymbolStore} {name : String} {hierarchy : Hierarchy}

theorem root_mem_classLike (hfound : store.hierarchy? name = some hierarchy) :
    hierarchy.root ∈ store.classLike name := by
  obtain ⟨root, hroot, rfl⟩ := Option.map_eq_some_iff.1 hfound
  exact List.mem_of_head? hroot

theorem lookup_of_hierarchy? (hfound : store.hierarchy? name = some hierarchy) :
    hierarchy.lookup = store.lookup := by
  obtain ⟨root, -, rfl⟩ := Option.map_eq_some_iff.1 hfound
  rfl

theorem hierarchy?_congr (store : SymbolStore) {left right : String}
    (heq : eqIgnoringCase left right = true) :
    store.hierarchy? left = store.hierarchy? right := by
  have hsame : store.lookup.find left = store.lookup.find right := store.classLike_congr heq
  rw [hierarchy?, hierarchy?, Hierarchy.ofName?, Hierarchy.ofName?, hsame]

/-- What a class inherits from is found under a name, and all others of the name are inherited
from too. -/
theorem classLike_subset_associated (hfound : store.hierarchy? name = some hierarchy)
    {base : Declared} (hbase : base ∈ hierarchy.associated) :
    base ∈ store.classLike base.symbol.name ∧
      store.classLike base.symbol.name ⊆ hierarchy.associated := by
  obtain ⟨found, hmem, hsubset⟩ := Hierarchy.exists_find_of_mem_associated hbase
  rw [lookup_of_hierarchy? hfound] at hmem hsubset
  have hsame : store.classLike base.symbol.name = store.classLike found :=
    classLike_of_mem hmem
  rw [hsame]
  exact ⟨hmem, hsubset⟩

theorem Sound.classLike_subset (hsound : store.Sound) (name : String) :
    store.classLike name ⊆ store.declarations := by
  intro declared hmem
  exact (hsound.mem_findDeclared_iff.1 hmem).1

/-- The members that a class sees are declared by itself or by a type it inherits from, one that
is found under its own name. -/
theorem exists_owner_of_mem_visibleMembers (hfound : store.hierarchy? name = some hierarchy)
    {member : Declared} (hmem : member ∈ hierarchy.visibleMembers) :
    ∃ owner, (owner = hierarchy.root ∨ owner ∈ hierarchy.associated) ∧
      owner ∈ store.classLike owner.symbol.name ∧ member ∈ owner.children ∧
        member.symbol.kind.isMember = true := by
  rcases List.mem_append.1 hmem with hown | hinherited
  · obtain ⟨hchild, hkind⟩ := List.mem_filter.1 hown
    have hroot := root_mem_classLike hfound
    refine ⟨hierarchy.root, Or.inl rfl, ?_, hchild, hkind⟩
    rw [classLike_of_mem hroot]
    exact hroot
  · obtain ⟨owner, howner, hchild⟩ := List.mem_flatMap.1 hinherited
    obtain ⟨hchild, hvisible⟩ := List.mem_filter.1 hchild
    exact ⟨owner, Or.inr howner, (classLike_subset_associated hfound howner).1, hchild,
      (Bool.and_eq_true_iff.1 hvisible).1⟩

theorem children_subset_allDeclared {owner : Declared}
    (howner : owner ∈ store.allDeclared) : owner.children ⊆ store.allDeclared := by
  obtain ⟨entry, hentry, hdeclared⟩ := List.mem_flatMap.1 howner
  intro child hchild
  exact List.mem_flatMap.2
    ⟨entry, hentry, Declared.children_subset_preorderAll _ _ _ _ owner hdeclared hchild⟩

theorem Sound.visibleMembers_subset (hsound : store.Sound)
    (hfound : store.hierarchy? name = some hierarchy) :
    hierarchy.visibleMembers ⊆ store.allDeclared := by
  intro member hmem
  obtain ⟨owner, -, howner, hchild, -⟩ := exists_owner_of_mem_visibleMembers hfound hmem
  exact children_subset_allDeclared
    (store.declarations_subset (hsound.classLike_subset _ howner)) hchild

end

/-! ## Members -/

/-- A member of a reference's name and kind that a class of its scope sees. -/
structure Meant (store : SymbolStore) (reference : Reference) (name : String)
    (hierarchy : Hierarchy) (member : Declared) : Prop where
  scope : name ∈ TypeExpr.classNames reference.scope
  found : store.hierarchy? name = some hierarchy
  visible : member ∈ hierarchy.visibleMembers
  kind : member.symbol.kind = reference.kind
  named : member.symbol.nameEquals reference.name = true

/-- The declarations that a member reference leads to, before repetitions are dropped. -/
def foundMembers (store : SymbolStore) (reference : Reference) (policy : MemberPolicy) :
    List Declared :=
  (TypeExpr.classNames reference.scope).flatMap fun className =>
    match store.hierarchy? className with
    | some hierarchy => hierarchy.membersNamed policy reference.kind reference.name
    | none => []

/-- What a reference leads to is a member that it means. -/
theorem exists_meant_of_mem_foundMembers {store : SymbolStore} {reference : Reference}
    {policy : MemberPolicy} {declared : Declared}
    (hmem : declared ∈ store.foundMembers reference policy) :
    ∃ name hierarchy member, store.Meant reference name hierarchy member ∧
      Hierarchy.bind hierarchy.name member = declared := by
  obtain ⟨name, hname, hfound⟩ := List.mem_flatMap.1 hmem
  cases hhierarchy : store.hierarchy? name with
  | none => simp [hhierarchy] at hfound
  | some hierarchy =>
      rw [hhierarchy] at hfound
      obtain ⟨member, hvisible, hkind, hmatch, hbind⟩ :=
        Hierarchy.exists_of_mem_membersNamed hfound
      exact ⟨name, hierarchy, member, ⟨hname, hhierarchy, hvisible, hkind, hmatch⟩, hbind⟩

/-- A reference leads to all members that it means, if every declaration counts. -/
theorem Meant.mem_foundMembers {store : SymbolStore} {reference : Reference} {name : String}
    {hierarchy : Hierarchy} {member : Declared}
    (hmeant : store.Meant reference name hierarchy member) :
    Hierarchy.bind hierarchy.name member ∈ store.foundMembers reference .every := by
  refine List.mem_flatMap.2 ⟨name, hmeant.scope, ?_⟩
  rw [hmeant.found]
  exact Hierarchy.mem_membersNamed_every hmeant.visible hmeant.kind hmeant.named

/-- Whatever the policy, a reference refers to something if a member is meant. -/
theorem Meant.resolveMember_ne_nil {store : SymbolStore} {reference : Reference} {name : String}
    {hierarchy : Hierarchy} {member : Declared}
    (hmeant : store.Meant reference name hierarchy member) (policy : MemberPolicy) :
    store.resolveMember reference policy ≠ [] := by
  obtain ⟨declared, hdeclared⟩ := List.exists_mem_of_ne_nil _
    (Hierarchy.membersNamed_ne_nil policy hmeant.visible hmeant.kind hmeant.named)
  have hfound : declared ∈ store.foundMembers reference policy := by
    refine List.mem_flatMap.2 ⟨name, hmeant.scope, ?_⟩
    rw [hmeant.found]
    exact hdeclared
  obtain ⟨kept, hkept, -⟩ := Declared.exists_mem_distinct hfound
  exact List.ne_nil_of_mem (List.mem_map_of_mem hkept)

/-- A member that a reference refers to is meant by it, but for its type. -/
theorem exists_meant_of_mem_resolveMember {store : SymbolStore} {reference : Reference}
    {policy : MemberPolicy} {symbol : Symbol}
    (hmem : symbol ∈ store.resolveMember reference policy) :
    ∃ name hierarchy member, store.Meant reference name hierarchy member ∧
      symbol = { member.symbol with type := symbol.type } := by
  obtain ⟨declared, hdistinct, rfl⟩ := List.mem_map.1 hmem
  obtain ⟨name, hierarchy, member, hmeant, rfl⟩ :=
    exists_meant_of_mem_foundMembers (Declared.distinct_subset _ hdistinct)
  refine ⟨name, hierarchy, member, hmeant, ?_⟩
  rw [Hierarchy.symbol_bind]

/-- Where all declarations count, a member that is meant is referred to, itself or bound to a
class. -/
theorem Sound.exists_mem_resolveMember {store : SymbolStore} (hsound : store.Sound)
    {reference : Reference} {name : String} {hierarchy : Hierarchy} {member : Declared}
    (hmeant : store.Meant reference name hierarchy member) :
    ∃ symbol ∈ store.resolveMember reference .every,
      symbol.location = member.symbol.location := by
  obtain ⟨kept, hkept, hsame⟩ := Declared.exists_mem_distinct hmeant.mem_foundMembers
  refine ⟨kept.symbol, List.mem_map_of_mem hkept, ?_⟩
  rcases hsame with rfl | hsame
  · rw [Hierarchy.symbol_bind]
  · -- With an origin both are declarations of tables, and their origin tells they are one.
    obtain ⟨hsome, horigin⟩ := Declared.same_iff.1 hsame
    obtain ⟨name', hierarchy', member', hmeant', rfl⟩ :=
      exists_meant_of_mem_foundMembers (Declared.distinct_subset _ hkept)
    have hown := Hierarchy.bind_eq_of_origin (horigin ▸ hsome)
    have hown' := Hierarchy.bind_eq_of_origin hsome
    rw [hown, hown'] at horigin
    rw [hown']
    have heq := hsound.identified_all.unique member'
      (hsound.visibleMembers_subset hmeant'.found hmeant'.visible) member
      (hsound.visibleMembers_subset hmeant.found hmeant.visible) horigin
    rw [heq]

/-! ## References of each kind -/

section

variable (store : SymbolStore) {reference : Reference} (policy : MemberPolicy)

theorem resolve_of_isMember (hkind : reference.kind.isMember = true) :
    store.resolve reference policy = store.resolveMember reference policy := by
  rw [resolve]
  cases hcase : reference.kind <;> simp_all [SymbolKind.isMember]

/-- Members refer to members of their own kind. -/
theorem kind_of_mem_resolve {store : SymbolStore} {reference : Reference} {policy : MemberPolicy}
    {target : Symbol} (hkind : reference.kind.isMember = true)
    (htarget : target ∈ store.resolve reference policy) : target.kind = reference.kind := by
  rw [resolve_of_isMember store policy hkind] at htarget
  obtain ⟨name, hierarchy, member, hmeant, hsame⟩ := exists_meant_of_mem_resolveMember htarget
  rw [hsame]
  exact hmeant.kind

theorem resolve_of_isClassLike (hkind : reference.kind.isClassLike = true) :
    store.resolve reference policy = store.find reference.name (·.kind.isClassLike) := by
  rw [resolve]
  cases hcase : reference.kind <;> simp_all [SymbolKind.isClassLike]

theorem resolve_of_isVariable (hkind : reference.kind.isVariable = true) :
    store.resolve reference policy = store.resolveVariable reference := by
  rw [resolve]
  cases hcase : reference.kind <;> simp_all [SymbolKind.isVariable]

end

/-- Functions, constants and namespaces: what has a name of its own everywhere and is no class. -/
def isGlobal (kind : SymbolKind) : Bool :=
  kind == .function || kind == .constant || kind == .namespaceMark

theorem resolve_of_isGlobal (store : SymbolStore) {reference : Reference} (policy : MemberPolicy)
    (hkind : isGlobal reference.kind = true) :
    store.resolve reference policy = store.resolveGlobal reference := by
  rw [resolve]
  cases hcase : reference.kind <;> simp_all [isGlobal]

theorem kind_cases (kind : SymbolKind) :
    kind.isVariable = true ∨ kind.isMember = true ∨ kind.isClassLike = true ∨
      isGlobal kind = true ∨ kind = .file := by
  cases kind <;> decide

theorem isGlobal_eq_false {kind : SymbolKind}
    (hkind : kind.isMember = true ∨ kind.isClassLike = true) : isGlobal kind = false := by
  revert hkind
  cases kind <;> decide

/-- What is found by its name is class-like or global, unless it is a variable or a member. -/
theorem isClassLike_or_isGlobal {symbol : Symbol} (hvariable : symbol.kind.isVariable = false)
    (hmember : symbol.kind.isMember = false) (hindexable : symbol.isIndexable = true) :
    symbol.kind.isClassLike = true ∨ isGlobal symbol.kind = true := by
  have hfile : symbol.kind ≠ .file := by
    intro hkind
    simp [Symbol.isIndexable, hkind] at hindexable
  simpa [hvariable, hmember, hfile] using kind_cases symbol.kind

/-- The reference goes by one of its names where the target is named so. -/
theorem isNamed_iff {reference : Reference} {target : Symbol}
    (hcase : target.kind.isCaseSensitive = reference.kind.isCaseSensitive) :
    reference.isNamed target.name = true ↔
      ∃ name ∈ reference.names, target.nameEquals name = true := by
  rw [Reference.isNamed, List.any_eq_true]
  refine exists_congr fun name => and_congr_right fun _ => ?_
  rw [Symbol.nameEquals, hcase]
  split
  · rw [beq_iff_eq, beq_iff_eq, eq_comm]
  · rw [eqIgnoringCase_comm]

/-- What a global reference leads to has one of its names. -/
theorem exists_find_of_mem_resolveGlobal {store : SymbolStore} {reference : Reference}
    {target : Symbol} (hmem : target ∈ store.resolveGlobal reference) :
    ∃ name ∈ reference.names, target ∈ store.find name (·.kind == reference.kind) := by
  rw [resolveGlobal] at hmem
  cases halt : reference.altName with
  | none =>
      rw [halt] at hmem
      exact ⟨reference.name, List.mem_cons_self, hmem⟩
  | some alternative =>
      rw [halt] at hmem
      dsimp only at hmem
      split at hmem
      · exact ⟨alternative, by simp [Reference.names, halt], hmem⟩
      · exact ⟨reference.name, List.mem_cons_self, hmem⟩

/-- The second name counts as long as nothing is declared under the first. -/
theorem mem_resolveGlobal {store : SymbolStore} {reference : Reference} {target : Symbol}
    {name : String} (hname : name ∈ reference.names)
    (hmem : target ∈ store.find name (·.kind == reference.kind))
    (hfirst : target ∈ store.find reference.name (·.kind == reference.kind) ∨
      store.find reference.name (·.kind == reference.kind) = []) :
    target ∈ store.resolveGlobal reference := by
  rw [resolveGlobal]
  rcases hfirst with hfound | hnone
  · have hsome : (store.find reference.name (·.kind == reference.kind)).isEmpty = false := by
      simpa using List.ne_nil_of_mem hfound
    cases halt : reference.altName <;> simpa [hsome] using hfound
  · rcases List.mem_cons.1 hname with rfl | halternative
    · rw [hnone] at hmem
      exact absurd hmem List.not_mem_nil
    · rw [Option.mem_toList] at halternative
      rw [halternative]
      simpa [hnone] using hmem

/-- A target that is neither a variable nor a member was found by its name. -/
theorem Sound.mem_allSymbols_of_mem_resolve {store : SymbolStore} (hsound : store.Sound)
    {query : Reference} {policy : MemberPolicy} {target : Symbol}
    (hmem : target ∈ store.resolve query policy) (hvariable : target.kind.isVariable = false)
    (hmember : target.kind.isMember = false) :
    target ∈ store.allSymbols ∧ target.isIndexable = true := by
  have hfound : ∀ name (p : Symbol → Bool), target ∈ store.find name p →
      target ∈ store.allSymbols ∧ target.isIndexable = true := by
    intro name p hfind
    obtain ⟨hall, hindexable, -⟩ := hsound.mem_find_iff_mem_allSymbols.1 hfind
    exact ⟨hall, hindexable⟩
  rcases kind_cases query.kind with hkind | hkind | hkind | hkind | hkind
  · rw [resolve_of_isVariable store policy hkind, resolveVariable] at hmem
    split at hmem
    · exact absurd hmem List.not_mem_nil
    · have hmatch := (List.mem_filter.1 hmem).2
      simp [hvariable] at hmatch
  · rw [resolve_of_isMember store policy hkind] at hmem
    obtain ⟨name, hierarchy, member, hmeant, htarget⟩ := exists_meant_of_mem_resolveMember hmem
    rw [htarget, hmeant.kind, hkind] at hmember
    cases hmember
  · rw [resolve_of_isClassLike store policy hkind] at hmem
    exact hfound _ _ hmem
  · rw [resolve_of_isGlobal store policy hkind] at hmem
    obtain ⟨name, -, hfind⟩ := exists_find_of_mem_resolveGlobal hmem
    exact hfound _ _ hfind
  · rw [resolve, hkind] at hmem
    exact absurd hmem List.not_mem_nil

/-- The reference goes by the name of the target with its first name, or it may go by its second
one since nothing is declared under the first. -/
def GoesBy (store : SymbolStore) (reference : Reference) (target : Symbol) : Prop :=
  target.nameEquals reference.name = true ∨
    isGlobal target.kind = true ∧
      store.find reference.name (·.kind == reference.kind) = []

instance (store : SymbolStore) (reference : Reference) (target : Symbol) :
    Decidable (store.GoesBy reference target) :=
  inferInstanceAs (Decidable (_ ∨ _ ∧ _))

section

variable {store : SymbolStore} {reference : Reference} {target : Symbol}

/-- A second name counts for functions, constants and namespaces only. -/
theorem GoesBy.nameEquals (hgoes : store.GoesBy reference target)
    (hkind : target.kind.isMember = true ∨ target.kind.isClassLike = true) :
    target.nameEquals reference.name = true := by
  rcases hgoes with hname | ⟨hglobal, -⟩
  · exact hname
  · rw [isGlobal_eq_false hkind] at hglobal
    cases hglobal

/-- A reference with the name of a class leads to it. -/
theorem Sound.mem_resolve_of_isClassLike (hsound : store.Sound)
    (hclass : target.kind.isClassLike = true) (hkind : reference.kind.isClassLike = true)
    (hdeclared : target ∈ store.allSymbols) (hindexable : target.isIndexable = true)
    (hname : target.nameEquals reference.name = true) (policy : MemberPolicy) :
    target ∈ store.resolve reference policy := by
  rw [resolve_of_isClassLike store policy hkind]
  exact hsound.mem_find_iff_mem_allSymbols.2 ⟨hdeclared, hindexable, hname, hclass⟩

/-- A reference that goes by the name of a global declaration leads to it. -/
theorem Sound.mem_resolve_of_isGlobal (hsound : store.Sound)
    (hglobal : isGlobal target.kind = true) (hkind : reference.kind = target.kind)
    (hdeclared : target ∈ store.allSymbols) (hindexable : target.isIndexable = true)
    (hnamed : reference.isNamed target.name = true) (hgoes : store.GoesBy reference target)
    (policy : MemberPolicy) : target ∈ store.resolve reference policy := by
  have hfind : ∀ name, target.nameEquals name = true →
      target ∈ store.find name (·.kind == reference.kind) := by
    intro name hname
    exact hsound.mem_find_iff_mem_allSymbols.2 ⟨hdeclared, hindexable, hname, by simp [hkind]⟩
  obtain ⟨name, hmem, hname⟩ :=
    (isNamed_iff (congrArg SymbolKind.isCaseSensitive hkind.symm)).1 hnamed
  rw [resolve_of_isGlobal store policy (hkind ▸ hglobal)]
  apply mem_resolveGlobal hmem (hfind name hname)
  rcases hgoes with hown | ⟨-, hnone⟩
  · exact Or.inl (hfind reference.name hown)
  · exact Or.inr hnone

end

end SymbolStore

end SymbolIndex
