import SymbolIndex.Proofs.Exchange.Record
import SymbolIndex.Proofs.SortedDistinct
import SymbolIndex.Proofs.TypeExpr.Union

/-!
# Laws of unions

Where all parentheses close, uniting types is uniting lists of members: a union
is written from the members of its parts in order, each at its first place.  So
it does not matter how a union is grouped, nor whether a part comes again, and
the unknown type adds nothing.
-/

namespace SymbolIndex

/-! ## First places -/

section

variable {α : Type} [BEq α] [LawfulBEq α]

/-- It does not matter whether repetitions are dropped before or after a renaming that keeps
different items different, also if it drops some items altogether. -/
theorem eraseDups_filterMap {β : Type} [BEq β] [LawfulBEq β] {f : α → Option β}
    (hinjective : ∀ {left right : α} {image : β}, f left = some image → f right = some image →
      left = right) (items : List α) :
    (items.filterMap f).eraseDups = items.eraseDups.filterMap f := by
  induction hlength : items.length using Nat.strongRecOn generalizing items with
  | ind length ih =>
      cases items with
      | nil => rfl
      | cons first rest =>
          have hshorter : (rest.filter fun other => !other == first).length < length := by
            have hle := List.length_filter_le (fun other => !other == first) rest
            rw [List.length_cons] at hlength
            omega
          have hothers := ih _ hshorter (rest.filter fun other => !other == first) rfl
          rw [List.filterMap_filter] at hothers
          rw [List.eraseDups_cons]
          cases hfirst : f first with
          | none =>
              have hsame : rest.filterMap f =
                  rest.filterMap fun other => if !other == first then f other else none := by
                apply List.filterMap_congr
                intro other _
                by_cases heq : other = first
                · simp [heq, hfirst]
                · simp [heq]
              rw [List.filterMap_cons_none hfirst, List.filterMap_cons_none hfirst, ← hothers,
                hsame]
          | some image =>
              have hsame : (rest.filterMap f).filter (fun other => !other == image) =
                  rest.filterMap fun other => if !other == first then f other else none := by
                rw [List.filter_filterMap]
                apply List.filterMap_congr
                intro other _
                by_cases heq : other = first
                · simp [heq, hfirst]
                · -- What stands for the same item is the first item.
                  have hne : f other ≠ some image := fun himage => heq (hinjective himage hfirst)
                  cases hother : f other with
                  | none => simp
                  | some value =>
                      have hvalue : value ≠ image := fun himage => hne (himage ▸ hother)
                      simp [heq, hvalue]
              rw [List.filterMap_cons_some hfirst, List.filterMap_cons_some hfirst,
                List.eraseDups_cons, hsame, hothers]

theorem eraseDups_filter (p : α → Bool) (items : List α) :
    (items.filter p).eraseDups = items.eraseDups.filter p := by
  rw [← List.filterMap_eq_filter]
  apply eraseDups_filterMap
  intro left right image hleft hright
  rw [Option.guard_eq_some_iff] at hleft hright
  exact hleft.1.trans hright.1.symm

theorem eraseDups_map {β : Type} [BEq β] [LawfulBEq β] {f : α → β}
    (hinjective : Function.Injective f) (items : List α) :
    (items.map f).eraseDups = items.eraseDups.map f := by
  rw [← List.filterMap_eq_map]
  apply eraseDups_filterMap
  intro left right image hleft hright
  exact hinjective (Option.some_inj.1 (hleft.trans hright.symm))

theorem eraseDups_eraseDups (items : List α) : items.eraseDups.eraseDups = items.eraseDups :=
  eraseDups_of_nodup (eraseDups_spec items).2

theorem removeAll_congr {earlier others : List α} (hsame : ∀ item, item ∈ earlier ↔ item ∈ others)
    (items : List α) : items.removeAll earlier = items.removeAll others := by
  rw [List.removeAll, List.removeAll]
  apply List.filter_congr
  intro item _
  rw [Bool.eq_iff_iff]
  simp [hsame]

theorem eraseDups_append_eraseDups (items later : List α) :
    (items ++ later.eraseDups).eraseDups = (items ++ later).eraseDups := by
  have hlater : later.eraseDups.removeAll items = (later.removeAll items).eraseDups :=
    (eraseDups_filter _ later).symm
  rw [List.eraseDups_append, List.eraseDups_append, hlater, eraseDups_eraseDups]

theorem eraseDups_eraseDups_append (items later : List α) :
    (items.eraseDups ++ later).eraseDups = (items ++ later).eraseDups := by
  rw [List.eraseDups_append, List.eraseDups_append, eraseDups_eraseDups,
    removeAll_congr fun _ => List.mem_eraseDups]

/-- Items that came before add nothing. -/
theorem eraseDups_append_of_subset {items later : List α} (hsubset : later ⊆ items) :
    (items ++ later).eraseDups = items.eraseDups := by
  have hnone : later.removeAll items = [] := by
    rw [List.removeAll, List.filter_eq_nil_iff]
    intro item hmem
    simpa using hsubset hmem
  rw [List.eraseDups_append, hnone, List.eraseDups_nil, List.append_nil]

/-- Repetitions may be dropped before a replacement as well. -/
theorem eraseDups_map_eraseDups {β : Type} [BEq β] [LawfulBEq β] (f : α → β) (items : List α) :
    (items.eraseDups.map f).eraseDups = (items.map f).eraseDups := by
  induction items using List.reverseRecOn with
  | nil => rfl
  | append_singleton items item ih =>
      rw [List.map_append, List.map_singleton]
      by_cases hmem : item ∈ items
      · have hold : [item] ⊆ items := List.forall_mem_singleton.2 hmem
        have himage : [f item] ⊆ items.map f :=
          List.forall_mem_singleton.2 (List.mem_map_of_mem hmem)
        rw [eraseDups_append_of_subset hold, eraseDups_append_of_subset himage, ih]
      · have hnew : [item].removeAll items = [item] := by simpa [List.removeAll] using hmem
        have hone : [item].eraseDups = [item] := by simp [List.eraseDups_cons]
        rw [List.eraseDups_append, hnew, hone, List.map_append, List.map_singleton,
          ← eraseDups_eraseDups_append, ih, eraseDups_eraseDups_append]

end

namespace TypeExpr

/-! ## Unions of members -/

/-- The type with these members, each at its first place. -/
def union (parts : List (List Char)) : String :=
  String.ofList (joinUnique parts)

section

variable {parts others : List (List Char)} (hparts : ∀ part ∈ parts, IsMember part)

include hparts

theorem members_union : members (union parts).toList = parts.eraseDups := by
  rw [union, String.toList_ofList]
  exact members_joinUnique hparts

theorem closed_union : Closed (union parts) := by
  rw [Closed, union, String.toList_ofList]
  exact nesting_join fun part hmem => (hparts part (List.mem_eraseDups.1 hmem)).whole

end

theorem union_congr {parts others : List (List Char)}
    (hsame : parts.eraseDups = others.eraseDups) : union parts = union others := by
  rw [union, union, joinUnique, joinUnique, hsame]

theorem merge_eq_union (left right : String) :
    merge left right = union (members left.toList ++ members right.toList) :=
  rfl

/-- The unknown type and a type that comes again need not be looked at. -/
theorem merge_eq_ite (left right : String) :
    merge left right =
      if left = "" then union (members right.toList)
      else if right = "" ∨ left = right then union (members left.toList)
      else union (members left.toList ++ members right.toList) := by
  have hempty : members "".toList = [] := by
    rw [String.toList_empty]
    rfl
  rw [merge_eq_union]
  split
  · rename_i hleft
    rw [hleft, hempty, List.nil_append]
  · split
    · rename_i hright
      rcases hright with rfl | rfl
      · rw [hempty, List.append_nil]
      · exact union_congr (eraseDups_append_of_subset (List.Subset.refl _))
    · rfl

theorem merge_empty_left (type : String) : merge "" type = union (members type.toList) := by
  rw [merge_eq_ite, if_pos rfl]

theorem merge_of_nothing_new {type other : String} (hother : other = "" ∨ type = other) :
    merge type other = union (members type.toList) := by
  by_cases hempty : type = ""
  · rw [merge_eq_ite, if_pos hempty]
    rcases hother with rfl | rfl
    · rw [hempty]
    · rfl
  · rw [merge_eq_ite, if_neg hempty, if_pos hother]

section

variable {parts : List (List Char)} (hparts : ∀ part ∈ parts, IsMember part)

include hparts

theorem merge_union_left (right : String) :
    merge (union parts) right = union (parts ++ members right.toList) := by
  rw [merge_eq_union, members_union hparts]
  exact union_congr (eraseDups_eraseDups_append parts _)

theorem merge_union_right (left : String) :
    merge left (union parts) = union (members left.toList ++ parts) := by
  rw [merge_eq_union, members_union hparts]
  exact union_congr (eraseDups_append_eraseDups _ parts)

end

/-- The members of many types, in order. -/
def membersOfAll (types : List String) : List (List Char) :=
  types.flatMap fun type => members type.toList

theorem isMember_of_mem_membersOfAll {types : List String} (htypes : ∀ type ∈ types, Closed type) :
    ∀ part ∈ membersOfAll types, IsMember part := by
  intro part hmem
  obtain ⟨type, htype, hpart⟩ := List.mem_flatMap.1 hmem
  exact isMember_of_mem_members (htypes type htype) hpart

theorem mergeAll_concat (types : List String) (type : String) :
    mergeAll (types ++ [type]) = merge (mergeAll types) type := by
  rw [mergeAll, List.foldl_append]
  rfl

/-- The union of many types is written from all their members at once. -/
theorem mergeAll_eq_union {types : List String} (htypes : ∀ type ∈ types, Closed type) :
    mergeAll types = union (membersOfAll types) := by
  induction types using List.reverseRecOn with
  | nil => rfl
  | append_singleton types type ih =>
      obtain ⟨hearlier, -⟩ := List.forall_mem_append.1 htypes
      rw [mergeAll_concat, ih hearlier, merge_union_left (isMember_of_mem_membersOfAll hearlier),
        membersOfAll, membersOfAll, List.flatMap_append, List.flatMap_singleton]

/-! ## The laws -/

theorem atoms_merge {left right : String} (hleft : Closed left) (hright : Closed right) :
    atoms (merge left right) = (atoms left ++ atoms right).eraseDups := by
  have hinjective : Function.Injective String.ofList := fun _ _ heq => String.ofList_inj.1 heq
  rw [atoms, atoms, atoms, members_merge hleft hright, ← List.map_append, eraseDups_map hinjective]

/-- Merging is associative. -/
theorem merge_assoc {left middle right : String} (hleft : Closed left) (hmiddle : Closed middle)
    (hright : Closed right) :
    merge (merge left middle) right = merge left (merge middle right) := by
  rw [merge_eq_union left middle, merge_eq_union middle right,
    merge_union_left (isMember_of_mem_append hleft hmiddle),
    merge_union_right (isMember_of_mem_append hmiddle hright), List.append_assoc]

theorem merge_merge_self {left right : String} (hleft : Closed left) (hright : Closed right) :
    merge (merge left right) right = merge left right := by
  rw [merge_eq_union left right, merge_union_left (isMember_of_mem_append hleft hright)]
  exact union_congr (eraseDups_append_of_subset (List.subset_append_right _ _))

theorem mem_atoms_merge_comm {left right : String} (hleft : Closed left) (hright : Closed right)
    (atom : String) : atom ∈ atoms (merge left right) ↔ atom ∈ atoms (merge right left) := by
  rw [mem_atoms_merge hleft hright, mem_atoms_merge hright hleft]
  exact Or.comm

section

variable {types later : List String} (htypes : ∀ type ∈ types, Closed type)

include htypes

theorem closed_mergeAll : Closed (mergeAll types) := by
  rw [mergeAll_eq_union htypes]
  exact closed_union (isMember_of_mem_membersOfAll htypes)

theorem mergeAll_append (hlater : ∀ type ∈ later, Closed type) :
    mergeAll (types ++ later) = merge (mergeAll types) (mergeAll later) := by
  have hmembers := isMember_of_mem_membersOfAll htypes
  rw [mergeAll_eq_union (List.forall_mem_append.2 ⟨htypes, hlater⟩), mergeAll_eq_union htypes,
    mergeAll_eq_union hlater, merge_union_left hmembers,
    members_union (isMember_of_mem_membersOfAll hlater), membersOfAll, List.flatMap_append]
  exact (union_congr (eraseDups_append_eraseDups _ _)).symm

end

/-- Types whose parentheses close form a monoid under union, in which uniting with the same type
again changes nothing, and the members of a union keep the order in which they first came. -/
theorem merge_orderedMonoid {left middle right : String} (hleft : Closed left)
    (hmiddle : Closed middle) (hright : Closed right) {types later : List String}
    (htypes : ∀ type ∈ types, Closed type) (hlater : ∀ type ∈ later, Closed type) :
    atoms (merge left middle) = (atoms left ++ atoms middle).eraseDups ∧
      merge (merge left middle) right = merge left (merge middle right) ∧
      merge (merge left middle) middle = merge left middle ∧
      merge "" left = merge left "" ∧ merge left "" = merge left left ∧
      (∀ atom, atom ∈ atoms (merge left middle) ↔ atom ∈ atoms (merge middle left)) ∧
      Closed (merge left middle) ∧ Closed (mergeAll types) ∧
      mergeAll (types ++ later) = merge (mergeAll types) (mergeAll later) := by
  refine ⟨atoms_merge hleft hmiddle, merge_assoc hleft hmiddle hright,
    merge_merge_self hleft hmiddle, ?_, ?_, mem_atoms_merge_comm hleft hmiddle,
    closed_merge hleft hmiddle, closed_mergeAll htypes, mergeAll_append htypes hlater⟩
  · rw [merge_empty_left, merge_of_nothing_new (Or.inl rfl)]
  · rw [merge_of_nothing_new (Or.inl rfl), merge_of_nothing_new (Or.inr rfl)]

/-- A bar in a group cuts nothing, blank members and a parenthesis that closes nothing are passed
over. -/
theorem merge_orderedMonoid_grouped :
    Closed " (A|B)[] || int" ∧ Closed "int|(A|B)[])" ∧ Closed "null" ∧
      (∀ type ∈ ["int|Foo", "", "int"], Closed type) ∧ (∀ type ∈ ["string", "Foo"], Closed type) ∧
      atoms (merge " (A|B)[] || int" "int|(A|B)[])") = ["(A|B)[]", "int", "(A|B)[])"] ∧
      mergeAll (["int|Foo", "", "int"] ++ ["string", "Foo"]) =
        merge (mergeAll ["int|Foo", "", "int"]) (mergeAll ["string", "Foo"]) := by
  have hgrouped : Closed " (A|B)[] || int" := by decide
  have hsurplus : Closed "int|(A|B)[])" := by decide
  have hnull : Closed "null" := by decide
  have htypes : ∀ type ∈ ["int|Foo", "", "int"], Closed type := by decide
  have hlater : ∀ type ∈ ["string", "Foo"], Closed type := by decide
  have hlaws := merge_orderedMonoid hgrouped hsurplus hnull htypes hlater
  refine ⟨hgrouped, hsurplus, hnull, htypes, hlater, ?_, hlaws.2.2.2.2.2.2.2.2⟩
  rw [hlaws.1]
  decide +kernel

end TypeExpr

end SymbolIndex
