import SymbolIndex.Proofs.Position
import SymbolIndex.SourceText

/-!
# Positions of byte offsets

Between characters the position of an offset is strictly increasing in the offset.  So
parts of a text that do not overlap as stretches of bytes do not overlap as ranges, save that
a range has both its ends.
-/

namespace SymbolIndex

namespace SourceText

/-- The offset is the start of a character or the end of the text. -/
def isBoundary (text : String) (offset : Nat) : Bool :=
  (dropBytes? offset text.toList).isSome

/-- The position behind a character. -/
def behind (position : Position) (c : Char) : Position :=
  if c = '\n' then ⟨position.line + 1, 0⟩ else ⟨position.line, position.character + 1⟩

/-- The number of bytes on the line behind a character. -/
def widthBehind (width : Nat) (c : Char) : Nat :=
  if c = '\n' then 0 else width + c.utf8Size

theorem lt_behind (position : Position) (c : Char) : position < behind position c := by
  rw [behind, Position.lt_iff]
  split
  · exact Or.inl (Nat.lt_succ_self _)
  · exact Or.inr ⟨rfl, Nat.lt_succ_self _⟩

/-- A line has at least as many bytes as characters. -/
theorem character_behind_le {position : Position} {width : Nat} (c : Char)
    (hwidth : position.character ≤ width) :
    (behind position c).character ≤ widthBehind width c := by
  have hsize := c.utf8Size_pos
  rw [behind, widthBehind]
  split
  · exact Nat.le_refl 0
  · dsimp only
    omega

/-! ## One character further -/

theorem positionFrom_zero (position : Position) (width : Nat) (chars : List Char) :
    positionFrom position width 0 chars = position := by
  cases chars with
  | nil => rw [positionFrom]
  | cons c rest => rw [positionFrom]

/-- An offset within a character counts bytes, one behind it goes on from there. -/
theorem positionFrom_cons (position : Position) (width offset : Nat) (c : Char)
    (rest : List Char) :
    positionFrom position width (offset + 1) (c :: rest) =
      if offset + 1 < c.utf8Size then ⟨position.line, width + (offset + 1)⟩
      else positionFrom (behind position c) (widthBehind width c) (offset + 1 - c.utf8Size)
        rest := by
  rw [positionFrom, behind, widthBehind]
  by_cases hnewline : c = '\n'
  · subst hnewline
    rfl
  · rw [if_neg hnewline, if_neg hnewline, if_neg hnewline]

theorem dropBytes?_cons (offset : Nat) (c : Char) (rest : List Char) :
    dropBytes? (offset + 1) (c :: rest) =
      if c.utf8Size ≤ offset + 1 then dropBytes? (offset + 1 - c.utf8Size) rest else none := by
  rw [dropBytes?]

/-- No boundary is inside the first character. -/
theorem isSome_dropBytes?_cons {offset : Nat} {c : Char} {rest : List Char}
    (hboundary : (dropBytes? (offset + 1) (c :: rest)).isSome = true) :
    c.utf8Size ≤ offset + 1 ∧ (dropBytes? (offset + 1 - c.utf8Size) rest).isSome = true := by
  rw [dropBytes?_cons] at hboundary
  split at hboundary
  · rename_i hfits
    exact ⟨hfits, hboundary⟩
  · cases hboundary

/-! ## Order -/

/-- No offset is before the position that is counted from. -/
theorem le_positionFrom (chars : List Char) (position : Position) (width offset : Nat)
    (hwidth : position.character ≤ width) :
    position ≤ positionFrom position width offset chars := by
  induction chars generalizing position width offset with
  | nil =>
      rw [positionFrom]
  | cons c rest ih =>
      cases offset with
      | zero =>
          rw [positionFrom_zero]
      | succ offset =>
          rw [positionFrom_cons]
          split
          · exact Or.inr ⟨rfl, by dsimp only; omega⟩
          · exact le_trans (le_of_lt (lt_behind position c))
              (ih _ _ _ (character_behind_le c hwidth))

/-- A boundary is not behind any later offset, one inside a character or beyond the end
included. -/
theorem positionFrom_mono (chars : List Char) (position : Position) (width first second : Nat)
    (hwidth : position.character ≤ width) (hfirst : (dropBytes? first chars).isSome = true)
    (hle : first ≤ second) :
    positionFrom position width first chars ≤ positionFrom position width second chars := by
  induction chars generalizing position width first second with
  | nil =>
      rw [positionFrom, positionFrom]
  | cons c rest ih =>
      cases first with
      | zero =>
          rw [positionFrom_zero]
          exact le_positionFrom _ _ _ _ hwidth
      | succ first =>
          obtain ⟨more, rfl⟩ := Nat.exists_eq_add_of_le hle
          obtain ⟨hfits, hrest⟩ := isSome_dropBytes?_cons hfirst
          rw [Nat.add_right_comm, positionFrom_cons, positionFrom_cons, if_neg (by omega),
            if_neg (by omega)]
          exact ih _ _ _ _ (character_behind_le c hwidth) hrest (by omega)

/-- Between two boundaries there is at least one character. -/
theorem positionFrom_lt (chars : List Char) (position : Position) (width first second : Nat)
    (hwidth : position.character ≤ width) (hfirst : (dropBytes? first chars).isSome = true)
    (hsecond : (dropBytes? second chars).isSome = true) (hlt : first < second) :
    positionFrom position width first chars < positionFrom position width second chars := by
  induction chars generalizing position width first second with
  | nil =>
      obtain ⟨second, rfl⟩ := Nat.exists_eq_succ_of_ne_zero (Nat.ne_zero_of_lt hlt)
      rw [dropBytes?] at hsecond
      cases hsecond
  | cons c rest ih =>
      obtain ⟨second, rfl⟩ := Nat.exists_eq_succ_of_ne_zero (Nat.ne_zero_of_lt hlt)
      obtain ⟨hfits, hrest⟩ := isSome_dropBytes?_cons hsecond
      rw [Nat.succ_eq_add_one, positionFrom_cons _ _ second, if_neg (by omega)]
      have hbehind := character_behind_le c hwidth
      cases first with
      | zero =>
          rw [positionFrom_zero]
          exact lt_of_lt_of_le (lt_behind position c) (le_positionFrom _ _ _ _ hbehind)
      | succ first =>
          obtain ⟨hfits', hrest'⟩ := isSome_dropBytes?_cons hfirst
          rw [positionFrom_cons, if_neg (by omega)]
          exact ih _ _ _ _ hbehind hrest' hrest (by omega)

/-! ## Positions in a text -/

variable {text : String} {first second : Nat}

theorem positionAt_mono (hfirst : isBoundary text first = true) (hle : first ≤ second) :
    positionAt text first ≤ positionAt text second :=
  positionFrom_mono _ _ _ _ _ (Nat.le_refl 0) hfirst hle

theorem positionAt_lt (hfirst : isBoundary text first = true)
    (hsecond : isBoundary text second = true) (hlt : first < second) :
    positionAt text first < positionAt text second :=
  positionFrom_lt _ _ _ _ _ (Nat.le_refl 0) hfirst hsecond hlt

theorem zero_le_positionAt (text : String) (offset : Nat) :
    (⟨0, 0⟩ : Position) ≤ positionAt text offset :=
  le_positionFrom _ _ _ _ (Nat.le_refl 0)

end SourceText

end SymbolIndex
