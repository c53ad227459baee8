import Mathlib
import SymbolIndex.Cache.Memory
import SymbolIndex.Proofs.Position
import SymbolIndex.Proofs.SortedDistinct
import SymbolIndex.Proofs.Workspace.Soundness
import SymbolIndex.Workspace.Query

/-!
# The order of uses

The answer to a search for uses lists every place once, in the order of
documents and places.  With declarations it has the uses of all targets and
nothing else.  Without them each target loses the first of its uses that stands
within it, but before the uses of the targets are united: what one target lost
another one may bring back.
-/

namespace SymbolIndex

namespace Reference

/-- Both begin at one place of one document. -/
def samePlace (left right : Reference) : Bool :=
  left.location.uri == right.location.uri && left.start == right.start

/-- The left one stands in an earlier document, or earlier in the same one. -/
def Before (left right : Reference) : Prop :=
  left.location.uri < right.location.uri ∨
    left.location.uri = right.location.uri ∧ left.start < right.start

instance (left right : Reference) : Decidable (left.Before right) :=
  inferInstanceAs (Decidable (_ ∨ _))

/-! ## Places -/

theorem samePlace_iff {left right : Reference} :
    left.samePlace right = true ↔
      left.location.uri = right.location.uri ∧ left.start = right.start := by
  simp [samePlace]

theorem samePlace_refl (reference : Reference) : reference.samePlace reference = true :=
  samePlace_iff.2 ⟨rfl, rfl⟩

theorem samePlace_comm (left right : Reference) :
    left.samePlace right = right.samePlace left := by
  rw [Bool.eq_iff_iff, samePlace_iff, samePlace_iff]
  exact and_congr eq_comm eq_comm

/-- A reference precedes those behind it, and those at its own place. -/
theorem precedes_iff {left right : Reference} :
    left.precedes right = true ↔ left.Before right ∨ left.samePlace right = true := by
  rw [samePlace_iff, Before, precedes]
  have hle : left.start ≤ right.start ↔ left.start < right.start ∨ left.start = right.start := by
    constructor
    · intro h
      by_cases hge : right.start ≤ left.start
      · exact Or.inr (le_antisymm h hge)
      · exact Or.inl (not_le.1 hge)
    · rintro (hlt | heq)
      · exact (le_total _ _).resolve_right (not_le.2 hlt)
      · exact heq ▸ le_refl _
  simp only [Bool.or_eq_true, Bool.and_eq_true, decide_eq_true_eq, beq_iff_eq, hle]
  tauto

theorem precedes_of_samePlace {left right : Reference} (h : left.samePlace right = true) :
    left.precedes right = true :=
  precedes_iff.2 (Or.inr h)

theorem not_before {left right : Reference} :
    ¬ left.Before right ↔ right.precedes left = true := by
  rw [Before, precedes]
  simp only [Bool.or_eq_true, Bool.and_eq_true, decide_eq_true_eq, beq_iff_eq]
  rcases lt_trichotomy left.location.uri right.location.uri with hlt | heq | hgt
  · simp [hlt, hlt.ne', hlt.not_gt]
  · simp [heq, not_lt]
  · simp [hgt, hgt.ne', hgt.not_gt]

theorem precedes_total (left right : Reference) :
    (left.precedes right || right.precedes left) = true := by
  rw [Bool.or_eq_true]
  by_cases hbefore : left.Before right
  · exact Or.inl (precedes_iff.2 (Or.inl hbefore))
  · exact Or.inr (not_before.1 hbefore)

theorem precedes_trans {first second third : Reference} (h : first.precedes second = true)
    (h' : second.precedes third = true) : first.precedes third = true := by
  simp only [precedes, Bool.or_eq_true, Bool.and_eq_true, decide_eq_true_eq,
    beq_iff_eq] at h h' ⊢
  rcases h with h | ⟨h, hle⟩ <;> rcases h' with h' | ⟨h', hle'⟩
  · exact Or.inl (h.trans h')
  · exact Or.inl (h' ▸ h)
  · exact Or.inl (h ▸ h')
  · exact Or.inr ⟨h.trans h', le_trans hle hle'⟩

theorem pairwise_precedes (references : List Reference) :
    (references.mergeSort precedes).Pairwise fun left right => left.precedes right = true := by
  apply List.pairwise_mergeSort
  · intro first second third h h'
    exact precedes_trans h h'
  · exact precedes_total

end Reference

namespace Workspace

/-! ## Lists of uses -/

/-- Sorted without a repeated place, references stand strictly one before another. -/
theorem distinctPlaces_increasing (references : List Reference) :
    ((distinctPlaces references).mergeSort Reference.precedes).Pairwise Reference.Before := by
  have hdistinct : ((distinctPlaces references).mergeSort Reference.precedes).Pairwise
      fun left right => left.samePlace right = false := by
    have hsymm : ∀ {left right : Reference},
        left.samePlace right = false → right.samePlace left = false := by
      intro left right h
      rwa [Reference.samePlace_comm]
    refine ((List.mergeSort_perm _ _).pairwise_iff hsymm).2 ?_
    exact (eraseDupsBy_spec Reference.samePlace references).2.imp hsymm
  apply ((Reference.pairwise_precedes _).and hdistinct).imp
  rintro left right ⟨hprecedes, hplaces⟩
  refine (Reference.precedes_iff.1 hprecedes).resolve_right ?_
  simp [hplaces]

theorem mem_of_mem_distinctPlaces {references : List Reference} {reference : Reference}
    (hmem : reference ∈ distinctPlaces references) : reference ∈ references :=
  (eraseDupsBy_spec Reference.samePlace references).1.subset hmem

theorem exists_mem_distinctPlaces {references : List Reference} {reference : Reference}
    (hmem : reference ∈ references) :
    ∃ kept ∈ distinctPlaces references, reference.samePlace kept = true :=
  exists_mem_eraseDupsBy Reference.samePlace_refl hmem

theorem mem_of_mem_orderedUses {references : List Reference} {target : Symbol}
    {withDeclaration : Bool} {reference : Reference}
    (hmem : reference ∈ orderedUses references target withDeclaration) :
    reference ∈ references := by
  rw [orderedUses] at hmem
  cases withDeclaration with
  | true => exact List.mem_mergeSort.1 hmem
  | false => exact List.mem_mergeSort.1 (List.mem_of_mem_eraseP hmem)

theorem isWithin_congr (target : Symbol) {left right : Reference}
    (hplace : left.samePlace right = true) : isWithin target left = isWithin target right := by
  obtain ⟨huri, hstart⟩ := Reference.samePlace_iff.1 hplace
  rw [isWithin, isWithin, huri, hstart]

/-- In order, the first reference with a property stands before all others that have it. -/
theorem eq_or_before_of_find? {references : List Reference}
    (hincreasing : references.Pairwise Reference.Before) {p : Reference → Bool}
    {first other : Reference} (hfirst : references.find? p = some first)
    (hmem : other ∈ references) (hother : p other = true) :
    other = first ∨ first.Before other := by
  obtain ⟨-, earlier, later, rfl, hearlier⟩ := List.find?_eq_some_iff_append.1 hfirst
  rcases List.mem_append.1 hmem with hmem | hmem
  · exact absurd (hearlier other hmem) (by simp [hother])
  · rcases List.mem_cons.1 hmem with rfl | hlater
    · exact Or.inl rfl
    · have hafter := List.pairwise_cons.1 (List.pairwise_append.1 hincreasing).2.1
      exact Or.inr (hafter.1 other hlater)

/-- A use within the target that is left when the declaring one is taken away is a second one, and
the declaring one does not stand after it. -/
theorem exists_declaring_of_mem {references : List Reference} {target : Symbol}
    {reference : Reference} (hmem : reference ∈ orderedUses references target false)
    (hwithin : isWithin target reference = true) :
    ∃ declaring ∈ references, isWithin target declaring = true ∧
      declaring.precedes reference = true ∧
        ∀ p : Reference → Bool, p declaring = true → p reference = true →
          2 ≤ references.countP p := by
  have hleft : reference ∈ (references.mergeSort Reference.precedes).eraseP (isWithin target) :=
    hmem
  obtain ⟨declaring, earlier, later, hearlier, hdeclaring, hsorted, herased⟩ :=
    List.exists_of_eraseP (List.mem_of_mem_eraseP hleft) hwithin
  have hlater : reference ∈ later := by
    rw [herased] at hleft
    refine (List.mem_append.1 hleft).resolve_left ?_
    intro h
    exact absurd hwithin (by simpa using hearlier reference h)
  have hordered := Reference.pairwise_precedes references
  have hperm := List.mergeSort_perm references Reference.precedes
  rw [hsorted] at hordered hperm
  refine ⟨declaring, hperm.subset (by simp), hdeclaring, ?_, ?_⟩
  · exact (List.pairwise_cons.1 (List.pairwise_append.1 hordered).2.1).1 reference hlater
  · intro p hp hreference
    have hmore : 0 < later.countP p := List.countP_pos_iff.2 ⟨reference, hlater, hreference⟩
    rw [← hperm.countP_eq, List.countP_append, List.countP_cons_of_pos hp]
    omega

variable {σ : Type} [ByteStore σ]

section

variable {workspace : Workspace σ} {uri : String} {position : Position} {withDeclaration : Bool}

/-- What is found is a use of some target. -/
theorem mem_of_mem_findReferences {reference : Reference}
    (hmem : reference ∈ (workspace.findReferences uri position withDeclaration).1) :
    ∃ target ∈ (workspace.symbolsAt uri position .override).1,
      reference ∈ orderedUses ((workspace.flush uri).usesOf target) target withDeclaration :=
  List.mem_flatMap.1 (mem_of_mem_distinctPlaces (List.mem_mergeSort.1 hmem))

/-- Every use of a target is found, or another one at its place. -/
theorem exists_mem_findReferences {target : Symbol}
    (htarget : target ∈ (workspace.symbolsAt uri position .override).1) {reference : Reference}
    (hmem : reference ∈
      orderedUses ((workspace.flush uri).usesOf target) target withDeclaration) :
    ∃ found ∈ (workspace.findReferences uri position withDeclaration).1,
      reference.samePlace found = true := by
  have hunited : reference ∈ (workspace.symbolsAt uri position .override).1.flatMap
      fun target => orderedUses ((workspace.flush uri).usesOf target) target withDeclaration :=
    List.mem_flatMap.2 ⟨target, htarget, hmem⟩
  obtain ⟨found, hfound, hplace⟩ := exists_mem_distinctPlaces hunited
  exact ⟨found, List.mem_mergeSort.2 hfound, hplace⟩

variable (workspace uri position withDeclaration) in
theorem findReferences_increasing :
    (workspace.findReferences uri position withDeclaration).1.Pairwise Reference.Before :=
  distinctPlaces_increasing _

/-- The declaring occurrence of a target is the first of all uses found that stands within it. If
no other target has a use at its place, and the target itself has only one there, then nothing at
its place is left in the answer without declarations. -/
theorem findReferences_excludes_declaring {target : Symbol}
    (htarget : target ∈ (workspace.symbolsAt uri position .override).1) {declaring : Reference}
    (hdeclaring : (workspace.findReferences uri position true).1.find? (isWithin target) =
      some declaring)
    (hsole : ((workspace.flush uri).usesOf target).countP declaring.samePlace ≤ 1)
    (hown : ∀ other ∈ (workspace.symbolsAt uri position .override).1, other ≠ target →
      ∀ reference ∈ (workspace.flush uri).usesOf other, declaring.samePlace reference = false) :
    ∀ reference ∈ (workspace.findReferences uri position false).1,
      declaring.samePlace reference = false := by
  intro reference hmem
  rw [Bool.eq_false_iff]
  intro hplace
  obtain ⟨other, hother, hleft⟩ := mem_of_mem_findReferences hmem
  have hsame : other = target := by
    by_contra hne
    have hapart := hown other hother hne reference (mem_of_mem_orderedUses hleft)
    simp [hplace] at hapart
  subst hsame
  have hwithin : isWithin other reference = true := by
    rw [← isWithin_congr other hplace]
    exact List.find?_some hdeclaring
  obtain ⟨first, hfirst, hfirstWithin, hprecedes, htwice⟩ := exists_declaring_of_mem hleft hwithin
  -- The use taken away is in the answer with declarations, so it does not come before the
  -- declaring one there; being no later than a use at the same place, it stands at that place.
  have hlisted : first ∈ orderedUses ((workspace.flush uri).usesOf other) other true :=
    List.mem_mergeSort.2 hfirst
  obtain ⟨found, hfound, hfoundPlace⟩ := exists_mem_findReferences htarget hlisted
  have hdeclaringFirst : declaring.samePlace first = true := by
    have hfoundWithin : isWithin other found = true := by
      rw [← isWithin_congr other hfoundPlace]
      exact hfirstWithin
    rcases eq_or_before_of_find? (findReferences_increasing workspace uri position true)
      hdeclaring hfound hfoundWithin with rfl | hbefore
    · rwa [Reference.samePlace_comm]
    · have hback : found.precedes declaring = true := by
        refine Reference.precedes_trans (Reference.precedes_of_samePlace ?_)
          (Reference.precedes_trans hprecedes (Reference.precedes_of_samePlace ?_))
        · rwa [Reference.samePlace_comm]
        · rwa [Reference.samePlace_comm]
      exact absurd hbefore (Reference.not_before.2 hback)
  have hmany := htwice declaring.samePlace hdeclaringFirst hplace
  omega

end

/-! ### One class and two of one name -/

/-- A class and its only use. -/
def oneClass : Workspace MemoryCache :=
  ((new {} MemoryCache.empty).openDocument declaringDocument).openDocument usingDocument

/-- A second document with the class. -/
def redeclaringDocument : Document :=
  Snippet.document "b" "<?php class A {}" [Snippet.classDeclaration [] "A" none [] []]

def twoClasses : Workspace MemoryCache :=
  ((new {} MemoryCache.empty).openDocument declaringDocument).openDocument redeclaringDocument

theorem reachable_twoClasses : twoClasses.Reachable :=
  ((Reachable.new {} MemoryCache.empty).openDocument declaringDocument).openDocument
    redeclaringDocument

/-- Without declarations the mention where the class is declared is left out. -/
theorem findReferences_excludes_declaring_oneClass :
    ∃ target ∈ (oneClass.symbolsAt "b" ⟨0, 10⟩ .override).1, ∃ declaring,
      (oneClass.findReferences "b" ⟨0, 10⟩ true).1.find? (isWithin target) = some declaring ∧
      ((oneClass.flush "b").usesOf target).countP declaring.samePlace ≤ 1 ∧
      (∀ other ∈ (oneClass.symbolsAt "b" ⟨0, 10⟩ .override).1, other ≠ target →
        ∀ reference ∈ (oneClass.flush "b").usesOf other,
          declaring.samePlace reference = false) ∧
      ∀ reference ∈ (oneClass.findReferences "b" ⟨0, 10⟩ false).1,
        declaring.samePlace reference = false := by
  have hone : (oneClass.symbolsAt "b" ⟨0, 10⟩ .override).1.length = 1 := by decide +kernel
  have hdeclared : (oneClass.symbolsAt "b" ⟨0, 10⟩ .override).1.all (fun target =>
      ((oneClass.findReferences "b" ⟨0, 10⟩ true).1.find? (isWithin target)).any fun declaring =>
        ((oneClass.flush "b").usesOf target).countP declaring.samePlace ≤ 1) = true := by
    cbv
  obtain ⟨target, htargets⟩ := List.length_eq_one_iff.1 hone
  have htarget : target ∈ (oneClass.symbolsAt "b" ⟨0, 10⟩ .override).1 := by simp [htargets]
  obtain ⟨declaring, hdeclaring, hsole⟩ :=
    (Option.any_eq_true _ _).1 (List.all_eq_true.1 hdeclared target htarget)
  have hown : ∀ other ∈ (oneClass.symbolsAt "b" ⟨0, 10⟩ .override).1, other ≠ target →
      ∀ reference ∈ (oneClass.flush "b").usesOf other,
        declaring.samePlace reference = false := by
    intro other hother hne
    rw [htargets, List.mem_singleton] at hother
    exact absurd hother hne
  rw [decide_eq_true_eq] at hsole
  exact ⟨target, htarget, declaring, hdeclaring, hsole, hown,
    findReferences_excludes_declaring htarget hdeclaring hsole hown⟩

/-- Each of two classes of one name brings back the declaration that the other one lost. -/
theorem findReferences_keeps_declaring_of_two :
    twoClasses.Reachable ∧
      ∃ target ∈ (twoClasses.symbolsAt "a" ⟨0, 12⟩ .override).1, ∃ declaring,
        (twoClasses.findReferences "a" ⟨0, 12⟩ true).1.find? (isWithin target) =
          some declaring ∧
        declaring ∈ (twoClasses.findReferences "a" ⟨0, 12⟩ false).1 := by
  have hkept : (twoClasses.symbolsAt "a" ⟨0, 12⟩ .override).1.any (fun target =>
      ((twoClasses.findReferences "a" ⟨0, 12⟩ true).1.find? (isWithin target)).any fun declaring =>
        (twoClasses.findReferences "a" ⟨0, 12⟩ false).1.contains declaring) = true := by
    cbv
  obtain ⟨target, htarget, hdeclared⟩ := List.any_eq_true.1 hkept
  obtain ⟨declaring, hdeclaring, hmem⟩ := (Option.any_eq_true _ _).1 hdeclared
  exact ⟨reachable_twoClasses, target, htarget, declaring, hdeclaring,
    List.contains_iff_mem.1 hmem⟩

end Workspace

end SymbolIndex
