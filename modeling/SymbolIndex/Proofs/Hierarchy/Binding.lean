import SymbolIndex.Proofs.Hierarchy.Merging
import SymbolIndex.Proofs.TypeExpr.Rebinding

/-!
# Types of members

The members of a type are given with their late-bound types bound to it.  So
where a declared type has no late-bound name in a group, the type of the member
has none at all, and neither have the elements of its arrays.
-/

namespace SymbolIndex.Hierarchy

open TypeExpr

theorem type_bind (className : String) (member : Declared) :
    (bind className member).symbol.type = rebind member.symbol.type className := by
  rw [bind]
  split
  · rename_i hsame
    exact hsame.symm
  · rfl

/-- Every member comes from a declaration that is seen, with its type bound to the class. -/
theorem exists_bind_of_mem_members {hierarchy : Hierarchy} {policy : MemberPolicy}
    {p : Symbol → Bool} {member : Declared} (hmem : member ∈ hierarchy.members policy p) :
    ∃ declared ∈ hierarchy.visibleMembers, p declared.symbol = true ∧
      bind hierarchy.name declared = member := by
  rw [members, candidates_eq_visibleMembers, reconcile_eq_merged] at hmem
  obtain ⟨declared, hmerged, hbind⟩ := List.mem_map.1 hmem
  obtain ⟨hvisible, hp⟩ := List.mem_filter.1 (mem_of_mem_merged hmerged)
  exact ⟨declared, hvisible, hp, hbind⟩

/-- Rebinding replaces the late-bound names outside of groups, which are all of
them if none stands in a group.  If the class itself does not go by such a name,
the types of the members then mention none, and the elements of their arrays
mention none. -/
theorem members_freeOfLateBound (className : PlainName) :
    (∀ shapes, rebind (ofShapes shapes) className.text =
      ofShapes (shapes.map (Shape.rebound className)).eraseDups) ∧
    (∀ shapes, GroupsFree shapes → rebind (ofShapes shapes) className.text =
      ofShapes (shapes.map (Shape.rename className.bind)).eraseDups) ∧
    (className.isLateBound = false →
      (∀ shapes, FreeOfLateBound (rebind (ofShapes shapes) className.text) ↔ GroupsFree shapes) ∧
      ∀ (hierarchy : Hierarchy), hierarchy.name = className.text →
        ∀ (policy : MemberPolicy) (p : Symbol → Bool), ∀ member ∈ hierarchy.members policy p,
          ∃ declared ∈ hierarchy.visibleMembers,
            p declared.symbol = true ∧ bind className.text declared = member ∧
              ∀ shapes, declared.symbol.type = ofShapes shapes → GroupsFree shapes →
                FreeOfLateBound member.symbol.type ∧
                  FreeOfLateBound (element member.symbol.type)) := by
  refine ⟨rebind_ofShapes className, fun shapes hfree => rebind_eq_rename hfree className,
    fun hclass => ⟨fun shapes => freeOfLateBound_rebind hclass, ?_⟩⟩
  intro hierarchy hname policy p member hmem
  obtain ⟨declared, hvisible, hp, hbind⟩ := exists_bind_of_mem_members hmem
  rw [hname] at hbind
  refine ⟨declared, hvisible, hp, hbind, fun shapes htype hfree => ?_⟩
  have hmember : FreeOfLateBound member.symbol.type := by
    rw [← hbind, type_bind, htype]
    exact (freeOfLateBound_rebind hclass).2 hfree
  exact ⟨hmember, hmember.element⟩

/-! ## Late-bound names in groups -/

def classA : PlainName := { chars := "A".toList }

def staticType : PlainName := { chars := "static".toList }

def intType : PlainName := { chars := "int".toList }

def makeMethod (type : String) : Symbol :=
  { kind := .method, name := "make", type := type }

/-- The class `A` with one method, of a given type. -/
def withMethod (type : String) : Hierarchy where
  lookup := ⟨[], fun _ => []⟩
  root := ⟨none, { kind := .classType, name := "A", children := [makeMethod type] }⟩

theorem visibleMembers_withMethod (type : String) :
    (withMethod type).visibleMembers = [⟨none, makeMethod type⟩] := by
  have hown : (withMethod type).root.children = [⟨none, makeMethod type⟩] := rfl
  have hnone : (withMethod type).associated = [] := by
    simp [associated, reached, reach, discover, withMethod]
  rw [visibleMembers, hown, hnone]
  rfl

theorem members_withMethod (type : String) :
    (withMethod type).members .override (fun _ => true) =
      [bind "A" ⟨none, makeMethod type⟩] := by
  rw [members, candidates_eq_visibleMembers, visibleMembers_withMethod]
  rfl

def staticOutside : List Shape :=
  [.leaf staticType 1, .group [.leaf classA 0, .leaf intType 0] 1]

theorem ofShapes_staticOutside : ofShapes staticOutside = "static[]|(A|int)[]" := by
  simp only [ofShapes, staticOutside, List.map, Shape.chars]
  decide

/-- The late-bound name outside of the group is replaced, and there is none in the group. -/
theorem members_freeOfLateBound_staticOutside :
    classA.isLateBound = false ∧
      (withMethod "static[]|(A|int)[]").name = classA.text ∧
      ofShapes staticOutside = "static[]|(A|int)[]" ∧ GroupsFree staticOutside ∧
      rebind "static[]|(A|int)[]" "A" = "A[]|(A|int)[]" ∧
      ∀ member ∈ (withMethod "static[]|(A|int)[]").members .override fun _ => true,
        FreeOfLateBound member.symbol.type ∧ FreeOfLateBound (element member.symbol.type) := by
  have hclass : classA.isLateBound = false := by decide
  have hname : (withMethod "static[]|(A|int)[]").name = classA.text := by decide
  have hfree : GroupsFree staticOutside := by
    simp only [GroupsFree, staticOutside, Shape.groupNames, Shape.names, List.forall_mem_cons,
      List.flatMap_cons, List.flatMap_nil]
    decide
  have hmembers :=
    ((members_freeOfLateBound classA).2.2 hclass).2 _ hname .override fun _ => true
  refine ⟨hclass, hname, ofShapes_staticOutside, hfree, by decide +kernel, fun member hmem => ?_⟩
  obtain ⟨declared, hvisible, -, -, hbound⟩ := hmembers member hmem
  rw [visibleMembers_withMethod, List.mem_singleton] at hvisible
  refine hbound staticOutside ?_ hfree
  rw [hvisible, ofShapes_staticOutside]
  rfl

def staticInGroup : List Shape :=
  [.group [.leaf staticType 0, .leaf intType 0] 1]

/-- A late-bound name in a group survives rebinding, also in the types of members. -/
theorem members_keep_static_in_group :
    ofShapes staticInGroup = "(static|int)[]" ∧
      ofShapes (staticInGroup.map (Shape.rename classA.bind)).eraseDups = "(A|int)[]" ∧
      rebind "(static|int)[]" "A" = "(static|int)[]" ∧
      ∃ member ∈ (withMethod "(static|int)[]").members .override fun _ => true,
        ¬ FreeOfLateBound member.symbol.type ∧ element member.symbol.type = "static|int" := by
  have hshapes : ofShapes staticInGroup = "(static|int)[]" := by
    simp only [ofShapes, staticInGroup, List.map, Shape.chars]
    decide
  have hgroup : ¬ GroupsFree staticInGroup := by
    simp only [GroupsFree, staticInGroup, Shape.groupNames, Shape.names, List.forall_mem_cons,
      List.flatMap_cons, List.flatMap_nil]
    decide
  have hkept : ¬ FreeOfLateBound (rebind "(static|int)[]" "A") := by
    have hclass : classA.isLateBound = false := by decide
    rw [← hshapes]
    exact fun hfree => hgroup ((freeOfLateBound_rebind hclass).1 hfree)
  have hmember : bind "A" ⟨none, makeMethod "(static|int)[]"⟩ ∈
      (withMethod "(static|int)[]").members .override fun _ => true := by
    rw [members_withMethod]
    exact List.mem_singleton.2 rfl
  refine ⟨hshapes, ?_, by decide +kernel, _, hmember, ?_, ?_⟩
  · simp only [ofShapes, staticInGroup, Shape.rename, List.map, List.eraseDups_cons,
      List.filter_nil, List.eraseDups_nil, Shape.chars]
    decide
  · rwa [type_bind]
  · rw [type_bind]
    decide +kernel

end SymbolIndex.Hierarchy
