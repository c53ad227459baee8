import Mathlib.Data.List.Infix
import SymbolIndex.Proofs.Text.Casing
import SymbolIndex.Proofs.Text.Lines
import SymbolIndex.Text.Search

/-!
# Words in texts that are cut

A text is cut where it is blank: trimmed, split into lines, and put together from
lines again.  A word without blanks is never cut in two, and none arises where
two pieces meet.  So such a word occurs in a text exactly if it occurs in one of
the pieces.
-/

namespace SymbolIndex.Text

theorem contains_iff_infix {piece chars : List Char} :
    contains piece chars = true ↔ piece <:+: chars := by
  induction chars with
  | nil => simp [contains, before?]
  | cons c rest ih =>
      rw [List.infix_cons_iff, ← ih, contains, contains, before?]
      by_cases hinitial : piece.isPrefixOf (c :: rest) = true
      · simp [List.isPrefixOf_iff_prefix.1 hinitial]
      · have hnot : ¬ piece <+: c :: rest := fun h => hinitial (List.isPrefixOf_iff_prefix.2 h)
        simp [hinitial, hnot]

/-- What is found stands behind what is skipped. -/
theorem exists_eq_of_before? {piece chars skipped : List Char}
    (hfound : before? piece chars = some skipped) :
    ∃ behind, chars = skipped ++ (piece ++ behind) := by
  induction chars generalizing skipped with
  | nil =>
      rw [before?] at hfound
      split at hfound
      · rename_i hempty
        cases hfound
        exact ⟨[], by simp [List.isEmpty_iff.1 hempty]⟩
      · cases hfound
  | cons c rest ih =>
      rw [before?] at hfound
      split at hfound
      · rename_i hinitial
        cases hfound
        obtain ⟨behind, heq⟩ := List.isPrefixOf_iff_prefix.1 hinitial
        exact ⟨behind, heq.symm⟩
      · obtain ⟨more, hmore, rfl⟩ := Option.map_eq_some_iff.1 hfound
        obtain ⟨behind, rfl⟩ := ih hmore
        exact ⟨behind, rfl⟩

/-- And it is skipped in front of any other occurrence. -/
theorem isPrefix_of_before? {piece chars skipped front behind : List Char}
    (hfound : before? piece chars = some skipped) (hoccurs : chars = front ++ (piece ++ behind)) :
    skipped <+: front := by
  induction chars generalizing skipped front with
  | nil =>
      rw [before?] at hfound
      split at hfound
      · cases hfound
        exact List.nil_prefix
      · cases hfound
  | cons c rest ih =>
      rw [before?] at hfound
      split at hfound
      · cases hfound
        exact List.nil_prefix
      · rename_i hnot
        obtain ⟨more, hmore, rfl⟩ := Option.map_eq_some_iff.1 hfound
        cases front with
        | nil =>
            refine absurd (List.isPrefixOf_iff_prefix.2 ?_) hnot
            exact ⟨behind, hoccurs.symm⟩
        | cons first front =>
            rw [List.cons_append, List.cons.injEq] at hoccurs
            rw [hoccurs.1]
            exact List.cons_prefix_cons.2 ⟨rfl, ih hmore hoccurs.2⟩

theorem before?_eq_none_iff {piece chars : List Char} :
    before? piece chars = none ↔ ¬ piece <:+: chars := by
  rw [← contains_iff_infix, contains, Bool.not_eq_true, Option.isSome_eq_false_iff,
    Option.isNone_iff_eq_none]

/-- A piece does not reach over a character that is not in it. -/
theorem infix_append_cons_iff {piece left right : List Char} {c : Char} (hnot : c ∉ piece) :
    piece <:+: left ++ c :: right ↔ piece <:+: left ∨ piece <:+: right := by
  have hinitial : ∀ {front : List Char}, c ∉ front → front <+: c :: right → front = [] := by
    rintro (_ | ⟨first, front⟩) hnot hfront
    · rfl
    · rw [List.cons_prefix_cons] at hfront
      exact absurd (hfront.1 ▸ List.mem_cons_self) hnot
  rw [List.infix_append_iff, List.infix_cons_iff]
  constructor
  · rintro (hleft | (hright | hright) | ⟨back, front, rfl, hback, hfront⟩)
    · exact Or.inl hleft
    · rw [hinitial hnot hright]
      exact Or.inl List.nil_infix
    · exact Or.inr hright
    · rw [hinitial (fun hmem => hnot (List.mem_append_right _ hmem)) hfront, List.append_nil]
      exact Or.inl hback.isInfix
  · rintro (hleft | hright)
    · exact Or.inl hleft
    · exact Or.inr (Or.inl (Or.inr hright))

/-- A text without blanks. -/
structure Solid (word : List Char) : Prop where
  ne_nil : word ≠ []
  not_blank : word.any isBlank = false

/-- The word occurs in a text, in whatever ASCII case. -/
def Says (word chars : List Char) : Prop :=
  word <:+: asciiLower chars

instance (word chars : List Char) : Decidable (Says word chars) :=
  inferInstanceAs (Decidable (word <:+: asciiLower chars))

theorem says_of_infix {word longer chars : List Char} (hwithin : word <:+: longer)
    (hsaid : Says longer chars) : Says word chars :=
  hwithin.trans hsaid

theorem toLower_of_isBlank {c : Char} (hblank : isBlank c = true) : c.toLower = c := by
  apply toLower_eq_self
  intro hcapital
  simp only [isBlank, Bool.or_eq_true, Bool.and_eq_true, decide_eq_true_eq, beq_iff_eq] at hblank
  omega

namespace Solid

variable {word : List Char} (hword : Solid word)
include hword

theorem not_says_nil : ¬ Says word [] := by
  intro hsaid
  exact hword.ne_nil (List.infix_nil.1 hsaid)

theorem says_append_cons {c : Char} (hblank : isBlank c = true) (left right : List Char) :
    Says word (left ++ c :: right) ↔ Says word left ∨ Says word right := by
  have hnot : c ∉ word := fun hmem => List.any_eq_false.1 hword.not_blank c hmem hblank
  have hlower : asciiLower (left ++ c :: right) = asciiLower left ++ c :: asciiLower right := by
    rw [asciiLower, List.map_append, List.map_cons, toLower_of_isBlank hblank]
    rfl
  rw [Says, hlower]
  exact infix_append_cons_iff hnot

theorem says_cons {c : Char} (hblank : isBlank c = true) (rest : List Char) :
    Says word (c :: rest) ↔ Says word rest := by
  have hiff := hword.says_append_cons hblank [] rest
  rwa [List.nil_append, or_iff_right hword.not_says_nil] at hiff

theorem says_concat {c : Char} (hblank : isBlank c = true) (front : List Char) :
    Says word (front ++ [c]) ↔ Says word front := by
  rw [hword.says_append_cons hblank front [], or_iff_left hword.not_says_nil]

theorem says_trim (chars : List Char) : Says word (trim chars) ↔ Says word chars := by
  apply trim_induction (P := fun rest => Says word rest ↔ Says word chars) Iff.rfl
  · intro c rest hblank hsame
    rwa [hword.says_cons hblank] at hsame
  · intro front c hblank hsame
    rwa [hword.says_concat hblank] at hsame

theorem says_dropReturn (line : List Char) : Says word (dropReturn line) ↔ Says word line := by
  rw [dropReturn]
  split
  · rename_i front hreverse
    have hline : line = front.reverse ++ ['\r'] := by
      rw [← List.reverse_reverse line, hreverse, List.reverse_cons]
    rw [hline, hword.says_concat (by decide)]
  · exact Iff.rfl

/-- Pieces put together with blanks have the words of each piece. -/
theorem says_intercalate {mark : Char} (hblank : isBlank mark = true)
    (pieces : List (List Char)) :
    Says word (List.intercalate [mark] pieces) ↔ ∃ piece ∈ pieces, Says word piece := by
  induction pieces with
  | nil => simpa using hword.not_says_nil
  | cons piece rest ih =>
      cases rest with
      | nil => simp
      | cons next rest =>
          rw [List.intercalate_cons_cons, List.append_assoc, List.singleton_append,
            hword.says_append_cons hblank, ih]
          simp only [List.mem_cons, exists_eq_or_imp]

end Solid

/-! ## Lines -/

/-- A word in a text is in one of its lines. -/
theorem Solid.says_lines {word : List Char} (hword : Solid word) (chars : List Char) :
    (∃ line ∈ lines chars, Says word line) ↔ Says word chars := by
  obtain ⟨front, last, hpieces⟩ : ∃ front last, splitOn '\n' chars = front ++ [last] :=
    (List.eq_nil_or_concat' (splitOn '\n' chars)).resolve_left (splitOn_ne_nil '\n' chars)
  have hlast : (∃ line ∈ [last].filter (· ≠ []), Says word line) ↔ Says word last := by
    by_cases hnil : last = []
    · simpa [hnil] using hword.not_says_nil
    · simp [hnil]
  have hfront : (∃ line ∈ front.map dropReturn, Says word line) ↔
      ∃ piece ∈ front, Says word piece := by
    simp only [List.mem_map, exists_exists_and_eq_and, hword.says_dropReturn]
  have hchars : Says word chars ↔ ∃ piece ∈ front ++ [last], Says word piece := by
    have hblank : isBlank '\n' = true := by decide
    rw [← hpieces, ← hword.says_intercalate hblank, intercalate_splitOn]
  have hlines : lines chars = front.map dropReturn ++ [last].filter (· ≠ []) := by
    rw [lines, hpieces, List.dropLast_concat, List.getLast?_concat]
    rfl
  rw [hlines, hchars]
  simp only [List.mem_append, or_and_right, exists_or, hfront, hlast]
  simp only [List.mem_singleton, exists_eq_left]

end SymbolIndex.Text
