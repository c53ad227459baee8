import SymbolIndex.Proofs.SourceText
import SymbolIndex.Proofs.Text.Lines

/-!
# Positions line by line

A text is a last line without a line end, or a line, its end and the text below.
The walks between offsets and positions stay on the first line or go on below
it, so what is said of them is said by this induction.  An offset between two
characters is read back from its position.  A position whose character lies
beyond the end of its line is taken for the start of the next line, if there is
one.
-/

namespace SymbolIndex.SourceText

open SymbolIndex.Text

variable {line rest : List Char}

/-- A property of texts by their first line and what is below it. -/
theorem line_induction {P : List Char → Prop} (hlast : ∀ line, '\n' ∉ line → P line)
    (hmore : ∀ line rest, '\n' ∉ line → P rest → P (line ++ '\n' :: rest))
    (chars : List Char) : P chars := by
  -- The characters of the first line that were passed are carried along.
  have hpassed : ∀ front, '\n' ∉ front → P (front ++ chars) := by
    induction chars with
    | nil =>
        intro front hfront
        rw [List.append_nil]
        exact hlast front hfront
    | cons c rest ih =>
        intro front hfront
        by_cases hend : c = '\n'
        · rw [hend]
          exact hmore front rest hfront (ih [] List.not_mem_nil)
        · have hnext : '\n' ∉ front ++ [c] := by
            simp only [List.mem_append, List.mem_singleton, not_or]
            exact ⟨hfront, Ne.symm hend⟩
          rw [List.append_cons]
          exact ih (front ++ [c]) hnext
  exact hpassed [] List.not_mem_nil

/-- The position on the line below. -/
def down (position : Position) : Position :=
  ⟨position.line + 1, position.character⟩

/-! ## Bytes -/

theorem byteLength_append (front back : List Char) :
    byteLength (front ++ back) = byteLength front + byteLength back := by
  induction front with
  | nil => exact (Nat.zero_add _).symm
  | cons c front ih => rw [List.cons_append, byteLength, byteLength, ih, Nat.add_assoc]

theorem byteLength_le_of_isPrefix {front chars : List Char} (hfront : front <+: chars) :
    byteLength front ≤ byteLength chars := by
  obtain ⟨back, rfl⟩ := hfront
  rw [byteLength_append]
  exact Nat.le_add_right _ _

theorem length_le_byteLength (chars : List Char) : chars.length ≤ byteLength chars := by
  induction chars with
  | nil => exact Nat.le_refl 0
  | cons c chars ih =>
      have hsize := c.utf8Size_pos
      rw [List.length_cons, byteLength]
      omega

theorem byteLength_line (line rest : List Char) :
    byteLength (line ++ '\n' :: rest) = byteLength line + 1 + byteLength rest := by
  have hend : Char.utf8Size '\n' = 1 := rfl
  rw [byteLength_append, byteLength, hend, Nat.add_assoc]

theorem byteLength_line_end (line : List Char) :
    byteLength (line ++ ['\n']) = byteLength line + 1 :=
  byteLength_line line []

/-- Dropping goes on behind the first part. -/
theorem dropBytes?_append (front back : List Char) (more : Nat) :
    dropBytes? (byteLength front + more) (front ++ back) = dropBytes? more back := by
  induction front with
  | nil => rw [byteLength, Nat.zero_add, List.nil_append]
  | cons c front ih =>
      have hsize := c.utf8Size_pos
      obtain ⟨offset, hoffset⟩ : ∃ offset, byteLength (c :: front) + more = offset + 1 :=
        Nat.exists_eq_add_of_le' (by rw [byteLength]; omega)
      rw [byteLength] at hoffset
      rw [byteLength, hoffset, List.cons_append, dropBytes?_cons, if_pos (by omega), ← ih]
      congr 1
      omega

theorem takeBytes?_append (front back : List Char) :
    takeBytes? (byteLength front) (front ++ back) = some front := by
  induction front with
  | nil => rw [byteLength, takeBytes?]
  | cons c front ih =>
      have hsize := c.utf8Size_pos
      obtain ⟨count, hcount⟩ : ∃ count, byteLength (c :: front) = count + 1 :=
        Nat.exists_eq_add_of_le' (by rw [byteLength]; omega)
      rw [hcount, List.cons_append, takeBytes?]
      rw [byteLength] at hcount
      have hrest : count + 1 - c.utf8Size = byteLength front := by omega
      rw [if_pos (by omega), hrest, ih, Option.map_some]

/-- Whether the first bytes end at a boundary is seen from any front that has them. -/
theorem takeBytes?_append_of_le {count : Nat} (hle : count ≤ byteLength line)
    (back : List Char) : takeBytes? count (line ++ back) = takeBytes? count line := by
  induction line generalizing count with
  | nil =>
      obtain rfl : count = 0 := Nat.le_zero.1 hle
      rw [takeBytes?, takeBytes?]
  | cons c line ih =>
      rw [byteLength] at hle
      cases count with
      | zero => rw [takeBytes?, takeBytes?]
      | succ count =>
          rw [List.cons_append, takeBytes?, takeBytes?, ih (by omega)]

/-- What is left behind some bytes are the characters behind those that have them. -/
theorem dropBytes?_eq_some_iff {offset : Nat} {chars back : List Char} :
    dropBytes? offset chars = some back ↔
      ∃ front, chars = front ++ back ∧ byteLength front = offset := by
  constructor
  · intro hdrop
    induction chars generalizing offset with
    | nil =>
        cases offset with
        | zero => exact ⟨[], by simpa [dropBytes?] using hdrop, rfl⟩
        | succ offset =>
            rw [dropBytes?] at hdrop
            cases hdrop
    | cons c rest ih =>
        cases offset with
        | zero => exact ⟨[], by simpa [dropBytes?] using hdrop, rfl⟩
        | succ offset =>
            obtain ⟨hfits, -⟩ := isSome_dropBytes?_cons (Option.isSome_of_eq_some hdrop)
            rw [dropBytes?_cons, if_pos hfits] at hdrop
            obtain ⟨front, rfl, hfront⟩ := ih hdrop
            refine ⟨c :: front, rfl, ?_⟩
            rw [byteLength, hfront]
            omega
  · rintro ⟨front, rfl, rfl⟩
    have hdrop := dropBytes?_append front back 0
    rwa [Nat.add_zero, dropBytes?] at hdrop

/-- What is taken is the beginning with so many bytes. -/
theorem takeBytes?_eq_some_iff {count : Nat} {chars front : List Char} :
    takeBytes? count chars = some front ↔
      ∃ back, chars = front ++ back ∧ byteLength front = count := by
  constructor
  · intro htake
    induction chars generalizing count front with
    | nil =>
        cases count with
        | zero =>
            obtain rfl : [] = front := by simpa [takeBytes?] using htake
            exact ⟨[], rfl, rfl⟩
        | succ count =>
            rw [takeBytes?] at htake
            cases htake
    | cons c rest ih =>
        cases count with
        | zero =>
            obtain rfl : [] = front := by simpa [takeBytes?] using htake
            exact ⟨c :: rest, rfl, rfl⟩
        | succ count =>
            rw [takeBytes?] at htake
            split at htake
            · obtain ⟨more, hmore, rfl⟩ := Option.map_eq_some_iff.1 htake
              obtain ⟨back, rfl, hlength⟩ := ih hmore
              refine ⟨back, rfl, ?_⟩
              rw [byteLength, hlength]
              omega
            · cases htake
  · rintro ⟨back, rfl, rfl⟩
    exact takeBytes?_append front back

/-- An offset is a boundary if some characters of the text are in front of it. -/
theorem isBoundary_iff {text : String} {offset : Nat} :
    isBoundary text offset = true ↔
      ∃ front back, text.toList = front ++ back ∧ byteLength front = offset := by
  rw [isBoundary, Option.isSome_iff_exists, exists_comm]
  exact exists_congr fun back => dropBytes?_eq_some_iff

/-! ## From offsets to positions -/

/-- On the first line characters are counted, and bytes inside of a character. -/
theorem positionFrom_on_line (hline : '\n' ∉ line) (back : List Char) (position : Position)
    (width : Nat) {offset : Nat} (hle : offset ≤ byteLength line) :
    positionFrom position width offset (line ++ back) =
      ⟨position.line, (takeBytes? offset line).elim (width + offset) fun front =>
        position.character + front.length⟩ := by
  induction line generalizing position width offset with
  | nil =>
      obtain rfl : offset = 0 := Nat.le_zero.1 hle
      rw [positionFrom_zero, takeBytes?]
      rfl
  | cons c line ih =>
      obtain ⟨hend, hline⟩ := List.ne_and_not_mem_of_not_mem_cons hline
      cases offset with
      | zero =>
          rw [positionFrom_zero, takeBytes?]
          rfl
      | succ offset =>
          rw [byteLength] at hle
          rw [List.cons_append, positionFrom_cons, takeBytes?]
          by_cases hinside : offset + 1 < c.utf8Size
          · rw [if_pos hinside, if_neg (by omega)]
            rfl
          · rw [if_neg hinside, if_pos (by omega), ih hline _ _ (by omega), behind,
              if_neg (Ne.symm hend), widthBehind, if_neg (Ne.symm hend), Option.elim_map]
            have hwidth :
                width + c.utf8Size + (offset + 1 - c.utf8Size) = width + (offset + 1) := by
              omega
            rw [hwidth]
            congr 2
            funext front
            rw [Function.comp_apply, List.length_cons]
            dsimp only
            omega

/-- The walk from the start of a line does not depend on how many lines are above. -/
theorem positionFrom_down (position : Position) (width offset : Nat) (chars : List Char) :
    positionFrom (down position) width offset chars =
      down (positionFrom position width offset chars) := by
  induction chars generalizing position width offset with
  | nil => rw [positionFrom, positionFrom]
  | cons c rest ih =>
      cases offset with
      | zero => rw [positionFrom_zero, positionFrom_zero]
      | succ offset =>
          have hbehind : behind (down position) c = down (behind position c) := by
            rw [behind, behind]
            split
            · rfl
            · rfl
          rw [positionFrom_cons, positionFrom_cons, hbehind, ih]
          split
          · rfl
          · rfl

/-- Behind the end of the first line the walk goes on below. -/
theorem positionFrom_below (hline : '\n' ∉ line) (rest : List Char) (position : Position)
    (width offset : Nat) :
    positionFrom position width (byteLength line + 1 + offset) (line ++ '\n' :: rest) =
      positionFrom ⟨position.line + 1, 0⟩ 0 offset rest := by
  induction line generalizing position width with
  | nil =>
      have hend : Char.utf8Size '\n' = 1 := rfl
      have hoffset : byteLength [] + 1 + offset = offset + 1 := by
        rw [byteLength]
        omega
      rw [List.nil_append, hoffset, positionFrom_cons, hend, if_neg (by omega),
        Nat.add_sub_cancel]
      rfl
  | cons c line ih =>
      obtain ⟨hend, hline⟩ := List.ne_and_not_mem_of_not_mem_cons hline
      have hoffset : byteLength (c :: line) + 1 + offset =
          c.utf8Size + (byteLength line + offset) + 1 := by
        rw [byteLength]
        omega
      have hrest : c.utf8Size + (byteLength line + offset) + 1 - c.utf8Size =
          byteLength line + 1 + offset := by
        omega
      rw [hoffset, List.cons_append, positionFrom_cons, if_neg (by omega), hrest, ih hline,
        behind, if_neg (Ne.symm hend)]

/-- Behind the first line a position is one of the rest, on the line below. -/
theorem positionFrom_below_start (hline : '\n' ∉ line) (rest : List Char) (offset : Nat) :
    positionFrom ⟨0, 0⟩ 0 (byteLength line + 1 + offset) (line ++ '\n' :: rest) =
      down (positionFrom ⟨0, 0⟩ 0 offset rest) := by
  rw [positionFrom_below hline]
  exact positionFrom_down ⟨0, 0⟩ 0 offset rest

/-- Behind its first characters a line has the position with their number. -/
theorem positionFrom_of_line (front behind back : List Char) (hline : '\n' ∉ front ++ behind) :
    positionFrom ⟨0, 0⟩ 0 (byteLength front) (front ++ behind ++ back) = ⟨0, front.length⟩ := by
  have hle : byteLength front ≤ byteLength (front ++ behind) := by
    rw [byteLength_append]
    exact Nat.le_add_right _ _
  rw [positionFrom_on_line hline back ⟨0, 0⟩ 0 hle, takeBytes?_append]
  simp

/-- Beyond the end of the text the walk stands still. -/
theorem positionFrom_of_le {chars : List Char} {offset : Nat} (hle : byteLength chars ≤ offset)
    (position : Position) (width : Nat) :
    positionFrom position width offset chars =
      positionFrom position width (byteLength chars) chars := by
  induction chars generalizing position width offset with
  | nil => rw [positionFrom, positionFrom]
  | cons c rest ih =>
      rw [byteLength] at hle
      have hsize := c.utf8Size_pos
      obtain ⟨more, rfl⟩ : ∃ more, offset = more + 1 := Nat.exists_eq_add_of_le' (by omega)
      obtain ⟨size, hlength⟩ : ∃ size, byteLength (c :: rest) = size + 1 :=
        Nat.exists_eq_add_of_le' (by rw [byteLength]; omega)
      rw [hlength, positionFrom_cons, positionFrom_cons]
      rw [byteLength] at hlength
      have hrest : size + 1 - c.utf8Size = byteLength rest := by omega
      rw [if_neg (by omega), if_neg (by omega), hrest, ih (by omega)]

theorem positionAt_of_le {text : String} {offset : Nat} (hle : byteLength text.toList ≤ offset) :
    positionAt text offset = positionAt text (byteLength text.toList) :=
  positionFrom_of_le hle ⟨0, 0⟩ 0

/-! ## From positions to offsets -/

/-- The walk to a character of the first line goes at most to its end. -/
theorem bytesToCharacter_line (hline : '\n' ∉ line) (character : Nat) :
    bytesToCharacter character line = byteLength (line.take character) := by
  induction line generalizing character with
  | nil =>
      rw [List.take_nil, byteLength]
      cases character with
      | zero => rw [bytesToCharacter]
      | succ character => rw [bytesToCharacter]
  | cons c line ih =>
      obtain ⟨hend, hline⟩ := List.ne_and_not_mem_of_not_mem_cons hline
      cases character with
      | zero => rw [bytesToCharacter, List.take_zero, byteLength]
      | succ character =>
          rw [bytesToCharacter, if_neg (Ne.symm hend), ih hline, List.take_succ_cons, byteLength]

/-- The end of the first line counts as its last character. -/
theorem bytesToCharacter_line_cons (hline : '\n' ∉ line) (rest : List Char) (character : Nat) :
    bytesToCharacter character (line ++ '\n' :: rest) =
      byteLength ((line ++ ['\n']).take character) := by
  induction line generalizing character with
  | nil =>
      cases character with
      | zero => rw [bytesToCharacter, List.take_zero, byteLength]
      | succ character => simp [bytesToCharacter, byteLength]
  | cons c line ih =>
      obtain ⟨hend, hline⟩ := List.ne_and_not_mem_of_not_mem_cons hline
      cases character with
      | zero => rw [bytesToCharacter, List.take_zero, byteLength]
      | succ character =>
          rw [List.cons_append, bytesToCharacter, if_neg (Ne.symm hend), ih hline,
            List.cons_append, List.take_succ_cons, byteLength]

theorem bytesTo_succ_line (hline : '\n' ∉ line) (number character : Nat) :
    bytesTo (number + 1) character line = byteLength line := by
  induction line with
  | nil => rw [bytesTo, byteLength]
  | cons c line ih =>
      obtain ⟨hend, hline⟩ := List.ne_and_not_mem_of_not_mem_cons hline
      rw [bytesTo, if_neg (Ne.symm hend), ih hline, byteLength]

/-- Behind the first line an offset is one of the rest, farther on. -/
theorem bytesTo_below (hline : '\n' ∉ line) (rest : List Char) (number character : Nat) :
    bytesTo (number + 1) character (line ++ '\n' :: rest) =
      byteLength line + 1 + bytesTo number character rest := by
  induction line with
  | nil =>
      have hend : Char.utf8Size '\n' = 1 := rfl
      rw [List.nil_append, bytesTo, if_pos rfl, hend, byteLength, Nat.zero_add]
  | cons c line ih =>
      obtain ⟨hend, hline⟩ := List.ne_and_not_mem_of_not_mem_cons hline
      rw [List.cons_append, bytesTo, if_neg (Ne.symm hend), ih hline, byteLength]
      omega

/-! ## There and back -/

theorem splitOn_line (hline : '\n' ∉ line) : splitOn '\n' line = [line] := by
  rw [splitOn_eq, List.splitOn_eq_singleton hline]

theorem splitOn_line_cons (hline : '\n' ∉ line) (rest : List Char) :
    splitOn '\n' (line ++ '\n' :: rest) = line :: splitOn '\n' rest := by
  rw [splitOn_append_cons, splitOn_line hline, List.singleton_append]

/-- The bytes in front of a boundary are those to its position. -/
theorem bytesTo_positionFrom (front back : List Char) :
    bytesTo (positionFrom ⟨0, 0⟩ 0 (byteLength front) (front ++ back)).line
      (positionFrom ⟨0, 0⟩ 0 (byteLength front) (front ++ back)).character (front ++ back) =
        byteLength front := by
  generalize hchars : front ++ back = chars
  induction chars using line_induction generalizing front with
  | hlast line hline =>
      have hposition := positionFrom_of_line front back [] (hchars ▸ hline)
      rw [List.append_nil, hchars] at hposition
      rw [hposition, bytesTo, bytesToCharacter_line hline, ← hchars, List.take_left]
  | hmore line rest hline ih =>
      rcases List.append_eq_append_iff.1 hchars with ⟨behind, rfl, -⟩ | ⟨more, rfl, hmore⟩
      · rw [positionFrom_of_line _ _ _ hline, bytesTo, bytesToCharacter_line_cons hline,
          List.append_assoc, List.take_left]
      · rcases List.cons_eq_append_iff.1 hmore with ⟨rfl, -⟩ | ⟨below, rfl, rfl⟩
        · have hposition := positionFrom_of_line line [] ('\n' :: rest)
            (by rwa [List.append_nil])
          rw [List.append_nil] at hposition
          rw [List.append_nil, hposition, bytesTo, bytesToCharacter_line_cons hline,
            List.take_left]
        · rw [byteLength_line, positionFrom_below_start hline]
          dsimp only [down]
          rw [bytesTo_below hline, ih below rfl]

/-- The offset of a position whose line exists leads back to it if its character does.  The first
character that does not is the start of the line below, and on the last line its end. -/
theorem positionFrom_bytesTo {chars found : List Char} {number : Nat} (character : Nat)
    (hfound : (splitOn '\n' chars)[number]? = some found) :
    positionFrom ⟨0, 0⟩ 0 (bytesTo number character chars) chars =
      if character ≤ found.length then ⟨number, character⟩
      else if number + 1 < (splitOn '\n' chars).length then ⟨number + 1, 0⟩
      else ⟨number, found.length⟩ := by
  induction chars using line_induction generalizing number with
  | hlast line hline =>
      rw [splitOn_line hline] at hfound ⊢
      obtain ⟨rfl, rfl⟩ : number = 0 ∧ line = found := by
        simpa [List.getElem?_singleton] using hfound
      have hposition := positionFrom_of_line (line.take character) (line.drop character) []
        (by rwa [List.take_append_drop])
      rw [List.take_append_drop, List.append_nil, List.length_take] at hposition
      rw [bytesTo, bytesToCharacter_line hline, hposition]
      split
      · rename_i hle
        rw [Nat.min_eq_left hle]
      · rename_i hgt
        rw [if_neg (by simp), Nat.min_eq_right (by omega)]
  | hmore line rest hline ih =>
      rw [splitOn_line_cons hline] at hfound ⊢
      cases number with
      | zero =>
          obtain rfl : line = found := by simpa using hfound
          rw [bytesTo, bytesToCharacter_line_cons hline]
          split
          · rename_i hle
            have hposition := positionFrom_of_line (line.take character)
              (line.drop character) ('\n' :: rest) (by rwa [List.take_append_drop])
            rw [List.take_append_drop, List.length_take, Nat.min_eq_left hle] at hposition
            rw [List.take_append_of_le_length hle, hposition]
          · rename_i hgt
            have hbelow := positionFrom_below_start hline rest 0
            have hrest := List.length_pos_of_ne_nil (splitOn_ne_nil '\n' rest)
            rw [Nat.add_zero] at hbelow
            rw [List.take_of_length_le (by simp; omega), byteLength_line_end, hbelow,
              positionFrom_zero,
              if_pos (by simp; omega)]
            rfl
      | succ number =>
          rw [List.getElem?_cons_succ] at hfound
          rw [bytesTo_below hline, positionFrom_below_start hline, ih hfound, List.length_cons,
            apply_ite down, apply_ite down]
          simp only [Nat.add_lt_add_iff_right]
          rfl

theorem offsetAt_positionAt {text : String} {offset : Nat}
    (hboundary : isBoundary text offset = true) :
    offsetAt text (positionAt text offset) = offset := by
  obtain ⟨front, back, htext, rfl⟩ := isBoundary_iff.1 hboundary
  rw [offsetAt, positionAt, htext]
  exact bytesTo_positionFrom front back

/-- Where the line of a position exists, its offset leads back to that line, and to no later
character, exactly if the character is on the line or just behind it, or the line is the last.
Beyond the end of any other line it leads to the start of the line below. -/
theorem line_positionAt_offsetAt {text : String} {position : Position} {line : List Char}
    (hline : (splitOn '\n' text.toList)[position.line]? = some line) :
    let back := positionAt text (offsetAt text position)
    (back.line = position.line ∧ back.character ≤ position.character ↔
      position.character ≤ line.length ∨
        position.line + 1 = (splitOn '\n' text.toList).length) ∧
    back =
      if position.character ≤ line.length then position
      else if position.line + 1 < (splitOn '\n' text.toList).length then ⟨position.line + 1, 0⟩
      else ⟨position.line, line.length⟩ := by
  intro back
  have hback : back = _ := positionFrom_bytesTo position.character hline
  obtain ⟨hexists, -⟩ := List.getElem?_eq_some_iff.1 hline
  refine ⟨?_, hback⟩
  rw [hback]
  split
  · rename_i hle
    simp [hle]
  · rename_i hgt
    split
    · simp only [Nat.succ_ne_self, false_and, false_iff, not_or]
      omega
    · simp only [true_and]
      omega

/-- A character just behind the first line, whose end is a carriage return and a line feed, and
one far beyond the last line. -/
theorem line_positionAt_offsetAt_clamped :
    let text := "é\r\nb"
    (splitOn '\n' text.toList)[0]? = some ['é', '\r'] ∧
      (splitOn '\n' text.toList)[1]? = some ['b'] ∧
      positionAt text (offsetAt text ⟨0, 2⟩) = ⟨0, 2⟩ ∧
      (positionAt text (offsetAt text ⟨1, 9⟩)).line = 1 ∧
      (positionAt text (offsetAt text ⟨1, 9⟩)).character ≤ 9 := by
  intro text
  let between : Position := ⟨0, 2⟩
  let clamped : Position := ⟨1, 9⟩
  have hfirst : (splitOn '\n' text.toList)[between.line]? = some ['é', '\r'] := by decide
  have hlast : (splitOn '\n' text.toList)[clamped.line]? = some ['b'] := by decide
  have hbehind := (line_positionAt_offsetAt hfirst).2
  obtain ⟨hline, hcharacter⟩ := (line_positionAt_offsetAt hlast).1.2 (Or.inr (by decide))
  exact ⟨hfirst, hlast, hbehind, hline, hcharacter⟩

/-- A character beyond the end of a line that is not the last leads to the next line. -/
theorem positionAt_offsetAt_leaves_line :
    (splitOn '\n' "a\nb".toList)[0]? = some ['a'] ∧
      positionAt "a\nb" (offsetAt "a\nb" ⟨0, 2⟩) = ⟨1, 0⟩ ∧
      (positionAt "a\nb" (offsetAt "a\nb" ⟨0, 2⟩)).line ≠ 0 := by
  decide

end SymbolIndex.SourceText
