import Mathlib
import SymbolIndex.Text.Casing

/-!
# Folding of letter case

Names are filed under their full lower-case form but compared up to the case of
ASCII letters only.  A lookup that goes through the filed form can miss nothing
as long as equal names have one filed form.  The one thing in the way is the
capital sigma, whose form depends on what stands around it: the ASCII letters
among its neighbours count as cased in both of their forms.
-/

namespace SymbolIndex.Text

theorem toNat_toLower (c : Char) :
    c.toLower.toNat =
      if 65 ≤ c.toNat ∧ c.toNat ≤ 90 then c.toNat + 32 else c.toNat := by
  have hge : c.val ≥ 'A'.val ↔ 65 ≤ c.toNat := Iff.rfl
  have hle : c.val ≤ 'Z'.val ↔ c.toNat ≤ 90 := Iff.rfl
  by_cases hcapital : 65 ≤ c.toNat ∧ c.toNat ≤ 90
  · rw [if_pos hcapital, Char.toLower, dif_pos ⟨hge.2 hcapital.1, hle.2 hcapital.2⟩]
    change (c.val + 32).toNat = c.val.toNat + 32
    have hvalue : c.val.toNat ≤ 90 := hcapital.2
    have hshift : (32 : UInt32).toNat = 32 := rfl
    rw [UInt32.toNat_add, hshift]
    exact Nat.mod_eq_of_lt (by omega)
  · rw [if_neg hcapital, Char.toLower, dif_neg]
    intro h
    exact hcapital ⟨hge.1 h.1, hle.1 h.2⟩

theorem toLower_eq_self {c : Char} (hnot : ¬ (65 ≤ c.toNat ∧ c.toNat ≤ 90)) :
    c.toLower = c := by
  apply Char.toNat_inj.1
  rw [toNat_toLower, if_neg hnot]

theorem toLower_toLower (c : Char) : c.toLower.toLower = c.toLower := by
  apply toLower_eq_self
  rw [toNat_toLower]
  split <;> omega

/-- No letter of ASCII is looked through at the end of a word. -/
theorem isCaseIgnorable_eq_false {c : Char}
    (hletter : 65 ≤ c.toNat ∧ c.toNat ≤ 90 ∨ 97 ≤ c.toNat ∧ c.toNat ≤ 122) :
    isCaseIgnorable c = false := by
  have htable : ∀ range ∈ ignorableRanges,
      range.2 < 65 ∨ 122 < range.1 ∨ 90 < range.1 ∧ range.2 < 97 := by
    decide +kernel
  rw [isCaseIgnorable, inRanges, List.any_eq_false]
  intro range hmem
  have hrange := htable range hmem
  simp only [Bool.and_eq_true, decide_eq_true_eq]
  omega

theorem isCaseIgnorable_toLower (c : Char) :
    isCaseIgnorable c.toLower = isCaseIgnorable c := by
  by_cases hcapital : 65 ≤ c.toNat ∧ c.toNat ≤ 90
  · rw [isCaseIgnorable_eq_false (Or.inl hcapital), isCaseIgnorable_eq_false]
    rw [toNat_toLower, if_pos hcapital]
    omega
  · rw [toLower_eq_self hcapital]

theorem isUpper_eq (c : Char) : c.isUpper = decide (65 ≤ c.toNat ∧ c.toNat ≤ 90) := by
  simp only [Char.isUpper, Bool.decide_and]
  rfl

theorem isCased_eq_true {c : Char}
    (hletter : 65 ≤ c.toNat ∧ c.toNat ≤ 90 ∨ 97 ≤ c.toNat ∧ c.toNat ≤ 122) :
    isCased c = true := by
  have hlower : c.isLower = decide (97 ≤ c.toNat ∧ c.toNat ≤ 122) := by
    simp only [Char.isLower, Bool.decide_and]
    rfl
  rw [isCased, if_pos (by omega), Char.isAlpha, isUpper_eq, hlower]
  simpa using hletter

theorem isCased_toLower (c : Char) : isCased c.toLower = isCased c := by
  by_cases hcapital : 65 ≤ c.toNat ∧ c.toNat ≤ 90
  · rw [isCased_eq_true (Or.inl hcapital), isCased_eq_true]
    rw [toNat_toLower, if_pos hcapital]
    omega
  · rw [toLower_eq_self hcapital]

theorem meetsCased_map_toLower (chars : List Char) :
    meetsCased (chars.map Char.toLower) = meetsCased chars := by
  induction chars with
  | nil => rfl
  | cons c rest ih =>
      by_cases hskip : isCaseIgnorable c = true
      · simpa [meetsCased, isCaseIgnorable_toLower, hskip] using ih
      · simp [meetsCased, isCaseIgnorable_toLower, hskip, isCased_toLower]

theorem lowerChar_toLower (c : Char) : lowerChar c.toLower = lowerChar c := by
  by_cases hcapital : 65 ≤ c.toNat ∧ c.toNat ≤ 90
  · have hlow : c.toLower.toNat < 128 := by
      rw [toNat_toLower, if_pos hcapital]
      omega
    rw [lowerChar, if_pos hlow, lowerChar, if_pos (by omega), toLower_toLower]
  · rw [toLower_eq_self hcapital]

/-- No other character lowers to one that is no letter of ASCII. -/
theorem toLower_eq_iff {c other : Char}
    (hother : ¬ (65 ≤ other.toNat ∧ other.toNat ≤ 90) ∧
      ¬ (97 ≤ other.toNat ∧ other.toNat ≤ 122)) :
    c.toLower = other ↔ c = other := by
  by_cases hcapital : 65 ≤ c.toNat ∧ c.toNat ≤ 90
  · have hlow := toNat_toLower c
    rw [if_pos hcapital] at hlow
    constructor
    · rintro rfl
      omega
    · rintro rfl
      exact absurd hcapital hother.1
  · rw [toLower_eq_self hcapital]

/-- ASCII case makes no difference to the lower-case form, not even of a final sigma. -/
theorem lowerAfter_map_toLower (before chars : List Char) :
    lowerAfter (before.map Char.toLower) (chars.map Char.toLower) =
      lowerAfter before chars := by
  induction chars generalizing before with
  | nil => rfl
  | cons c rest ih =>
      have hrest := ih (c :: before)
      rw [List.map_cons] at hrest
      have hsigma : c.toLower = 'Σ' ↔ c = 'Σ' := toLower_eq_iff (by decide)
      simp only [List.map_cons, lowerAfter, hsigma, meetsCased_map_toLower,
        lowerChar_toLower, hrest]

/-- In ASCII the full lower-case form replaces the capitals. -/
theorem lowerChars_of_ascii {chars : List Char} (hascii : ∀ c ∈ chars, c.toNat < 128) :
    lowerChars chars = asciiLower chars := by
  suffices hafter : ∀ before, lowerAfter before chars = asciiLower chars from hafter []
  induction chars with
  | nil => exact fun _ => rfl
  | cons c rest ih =>
      obtain ⟨hfirst, hrest⟩ := List.forall_mem_cons.1 hascii
      intro before
      have hsigma : c ≠ 'Σ' := by
        rintro rfl
        exact absurd hfirst (by decide)
      rw [lowerAfter, ih hrest (c :: before), if_neg hsigma, lowerChar, if_pos hfirst]
      rfl

theorem lower_ofList_of_ascii {chars : List Char} (hascii : ∀ c ∈ chars, c.toNat < 128) :
    lower (String.ofList chars) = String.ofList (asciiLower chars) := by
  rw [lower, String.toList_ofList, lowerChars_of_ascii hascii]

/-! ## Names -/

theorem eqIgnoringCase_iff {left right : String} :
    eqIgnoringCase left right = true ↔ asciiLower left.toList = asciiLower right.toList :=
  beq_iff_eq

theorem eqIgnoringCase_comm (left right : String) :
    eqIgnoringCase left right = eqIgnoringCase right left :=
  Bool.beq_comm

/-- Names that are equal up to ASCII case are filed under one form. -/
theorem lower_eq_of_eqIgnoringCase {left right : String}
    (heq : eqIgnoringCase left right = true) : lower left = lower right := by
  have hchars := eqIgnoringCase_iff.1 heq
  have hfold : ∀ chars, lowerChars (asciiLower chars) = lowerChars chars := by
    intro chars
    exact lowerAfter_map_toLower [] chars
  rw [lower, lower, ← hfold left.toList, hchars, hfold]

theorem lowerChar_ne_nil (c : Char) : lowerChar c ≠ [] := by
  unfold lowerChar
  split
  · simp
  · split
    · simp
    · dsimp only
      split <;> simp

/-- Only the empty name has the empty form. -/
theorem lower_ne_empty {name : String} (hname : name ≠ "") : lower name ≠ "" := by
  intro hempty
  have hchars : lowerChars name.toList = [] := by
    rw [← toList_lower, hempty]
    rfl
  cases hlist : name.toList with
  | nil => exact hname (String.toList_inj.1 (by simpa using hlist))
  | cons c rest =>
      rw [hlist, lowerChars, lowerAfter] at hchars
      have hhead := (List.append_eq_nil_iff.1 hchars).1
      split at hhead
      · split at hhead <;> simp at hhead
      · exact lowerChar_ne_nil c hhead

end SymbolIndex.Text
