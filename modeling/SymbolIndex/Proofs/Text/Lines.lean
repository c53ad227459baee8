import Mathlib.Data.List.DropRight
import SymbolIndex.Text.Blank

/-!
# Lines

A text is put together from its lines with line ends between them, and cut back
into the same lines.  What is cut off in front of a text or behind it are
blanks, so a text that begins and ends with something else stays as it is.
-/

namespace SymbolIndex.Text

variable {chars front body back : List Char}

/-! ## Trimmed texts -/

theorem trim_eq (chars : List Char) :
    trim chars = (chars.dropWhile isBlank).rdropWhile isBlank :=
  rfl

theorem trim_trim (chars : List Char) : trim (trim chars) = trim chars := by
  have hinitial : trim chars <+: chars.dropWhile isBlank := List.rdropWhile_prefix isBlank _
  -- What is cut off behind leaves the first character, which is not blank.
  have hfront : (trim chars).dropWhile isBlank = trim chars := by
    rw [List.dropWhile_eq_self_iff]
    intro hlength hblank
    rw [hinitial.getElem] at hblank
    exact List.dropWhile_eq_self_iff.1 (List.dropWhile_idempotent isBlank chars)
      (Nat.lt_of_lt_of_le hlength hinitial.length_le) hblank
  rw [trim_eq (trim chars), hfront, trim_eq chars]
  exact List.rdropWhile_idempotent isBlank _

/-- A property of texts that outer blanks do not matter for. -/
theorem trim_induction {P : List Char → Prop} {chars : List Char} (hchars : P chars)
    (hfront : ∀ c rest, isBlank c = true → P (c :: rest) → P rest)
    (hback : ∀ front c, isBlank c = true → P (front ++ [c]) → P front) : P (trim chars) := by
  have hdropped : P (chars.dropWhile isBlank) := by
    induction chars with
    | nil => exact hchars
    | cons c rest ih =>
        rw [List.dropWhile_cons]
        split
        · rename_i hblank
          exact ih (hfront c rest hblank hchars)
        · exact hchars
  rw [trim_eq]
  generalize chars.dropWhile isBlank = dropped at hdropped
  induction dropped using List.reverseRecOn with
  | nil => exact hdropped
  | append_singleton front c ih =>
      rw [List.rdropWhile_concat]
      split
      · rename_i hblank
        exact ih (hback front c hblank hdropped)
      · exact hdropped

theorem dropWhile_isBlank_eq_self (hfront : chars.head?.any isBlank = false) :
    chars.dropWhile isBlank = chars := by
  cases chars with
  | nil => rfl
  | cons c rest => rw [List.dropWhile_cons_of_neg (by simpa using hfront)]

theorem rdropWhile_isBlank_eq_self (hback : chars.getLast?.any isBlank = false) :
    chars.rdropWhile isBlank = chars := by
  rw [← List.head?_reverse] at hback
  rw [List.rdropWhile, dropWhile_isBlank_eq_self hback, List.reverse_reverse]

theorem head?_dropWhile_isBlank (chars : List Char) :
    (chars.dropWhile isBlank).head?.any isBlank = false := by
  have hstop := List.head?_dropWhile_not isBlank chars
  cases hhead : (chars.dropWhile isBlank).head? with
  | none => rfl
  | some c =>
      rw [hhead] at hstop
      exact hstop

/-- The texts that trimming leaves alone. -/
theorem trim_eq_self_iff : trim chars = chars ↔
    chars.head?.any isBlank = false ∧ chars.getLast?.any isBlank = false := by
  constructor
  · intro htrim
    have hinitial : trim chars <+: chars.dropWhile isBlank := List.rdropWhile_prefix isBlank _
    have hfront : chars.dropWhile isBlank = chars := by
      have hlength := hinitial.length_le
      rw [htrim] at hlength
      exact (List.dropWhile_suffix isBlank).eq_of_length_le hlength
    have hback : chars.reverse.dropWhile isBlank = chars.reverse := by
      rw [trim_eq, hfront, List.rdropWhile] at htrim
      rw [← List.reverse_inj, htrim, List.reverse_reverse]
    constructor
    · rw [← hfront]
      exact head?_dropWhile_isBlank chars
    · rw [← List.head?_reverse, ← hback]
      exact head?_dropWhile_isBlank chars.reverse
  · rintro ⟨hfront, hback⟩
    rw [trim_eq, dropWhile_isBlank_eq_self hfront, rdropWhile_isBlank_eq_self hback]

theorem trim_cons_of_isBlank {c : Char} (hblank : isBlank c = true) (rest : List Char) :
    trim (c :: rest) = trim rest := by
  rw [trim_eq, List.dropWhile_cons_of_pos hblank, trim_eq]

/-- Trimming takes off what is blank on both sides of a part that begins and ends with something
else. -/
theorem trim_append (hbody : trim body = body) (hsome : body ≠ []) :
    trim (front ++ (body ++ back)) =
      front.dropWhile isBlank ++ (body ++ back.rdropWhile isBlank) := by
  obtain ⟨hhead, hlast⟩ := trim_eq_self_iff.1 hbody
  have hdrop : (body ++ back).dropWhile isBlank = body ++ back := by
    apply dropWhile_isBlank_eq_self
    rwa [List.head?_append_of_ne_nil _ hsome]
  have hrdrop : ∀ start : List Char,
      (start ++ (body ++ back)).rdropWhile isBlank =
        start ++ (body ++ back.rdropWhile isBlank) := by
    intro start
    have hreverse : (start ++ body).reverse.dropWhile isBlank = (start ++ body).reverse := by
      apply dropWhile_isBlank_eq_self
      rwa [List.head?_reverse, List.getLast?_append_of_ne_nil _ hsome]
    rw [← List.append_assoc, List.rdropWhile, List.reverse_append, List.dropWhile_append]
    split
    · rename_i hempty
      rw [hreverse, List.reverse_reverse, List.rdropWhile, List.isEmpty_iff.1 hempty,
        List.reverse_nil, List.append_nil]
    · rw [List.reverse_append, List.reverse_reverse, List.append_assoc, List.rdropWhile]
  rw [trim_eq, List.dropWhile_append, hdrop]
  split
  · rename_i hempty
    rw [List.isEmpty_iff.1 hempty]
    exact hrdrop []
  · exact hrdrop _

/-! ## Cutting at a mark -/

theorem splitOn_eq (mark : Char) (chars : List Char) :
    splitOn mark chars = chars.splitOn mark := by
  induction chars with
  | nil => rfl
  | cons c rest ih =>
      obtain ⟨piece, more, hrest⟩ := List.exists_cons_of_ne_nil (List.splitOn_ne_nil mark rest)
      rw [splitOn, ih, List.splitOn_cons_eq_if_modifyHead, hrest]
      by_cases hmark : c = mark
      · simp [hmark]
      · simp [hmark]

theorem splitOn_ne_nil (mark : Char) (chars : List Char) : splitOn mark chars ≠ [] := by
  rw [splitOn_eq]
  exact List.splitOn_ne_nil mark chars

theorem intercalate_splitOn (mark : Char) (chars : List Char) :
    List.intercalate [mark] (splitOn mark chars) = chars := by
  rw [splitOn_eq]
  exact List.intercalate_splitOn mark

theorem splitOn_append_cons (mark : Char) (front back : List Char) :
    splitOn mark (front ++ mark :: back) = splitOn mark front ++ splitOn mark back := by
  simp only [splitOn_eq, List.splitOn_append_cons_self]

/-- What has no mark belongs to the first piece. -/
theorem splitOn_append_of_not_mem {mark : Char} (hnot : mark ∉ front) (back : List Char) :
    splitOn mark (front ++ back) = (splitOn mark back).modifyHead (front ++ ·) := by
  obtain ⟨piece, more, hback⟩ := List.exists_cons_of_ne_nil (splitOn_ne_nil mark back)
  induction front with
  | nil => simp [hback]
  | cons c front ih =>
      obtain ⟨hhead, htail⟩ := not_or.1 (fun h => hnot (List.mem_cons.2 h))
      rw [List.cons_append, splitOn, if_neg (Ne.symm hhead), ih htail, hback]
      rfl

/-- No piece has the mark. -/
theorem not_mem_of_mem_splitOn {mark : Char} {piece : List Char}
    (hmem : piece ∈ splitOn mark chars) : mark ∉ piece := by
  induction chars generalizing piece with
  | nil => simp_all [splitOn]
  | cons c rest ih =>
      obtain ⟨first, more, hrest⟩ := List.exists_cons_of_ne_nil (splitOn_ne_nil mark rest)
      rw [splitOn, hrest] at hmem
      rw [hrest] at ih
      by_cases hmark : c = mark
      · rw [if_pos hmark, List.mem_cons] at hmem
        rcases hmem with rfl | hmem
        · exact List.not_mem_nil
        · exact ih hmem
      · rw [if_neg hmark, List.mem_cons] at hmem
        rcases hmem with rfl | hmem
        · exact List.not_mem_cons_of_ne_of_not_mem (Ne.symm hmark) (ih List.mem_cons_self)
        · exact ih (List.mem_cons_of_mem _ hmem)

/-! ## Putting together -/

theorem intercalate_append {separator : List Char} {left right : List (List Char)}
    (hleft : left ≠ []) (hright : right ≠ []) :
    List.intercalate separator (left ++ right) =
      List.intercalate separator left ++ (separator ++ List.intercalate separator right) := by
  induction left with
  | nil => exact absurd rfl hleft
  | cons piece more ih =>
      by_cases hmore : more = []
      · rw [hmore, List.singleton_append, List.intercalate_cons_of_ne_nil hright,
          List.intercalate_singleton, List.append_assoc]
      · have happend : more ++ right ≠ [] := List.append_ne_nil_of_left_ne_nil hmore right
        rw [List.cons_append, List.intercalate_cons_of_ne_nil happend, ih hmore,
          List.intercalate_cons_of_ne_nil hmore]
        simp only [List.append_assoc]

/-- Each piece is part of what they are put together to. -/
theorem infix_intercalate {separator piece : List Char} {pieces : List (List Char)}
    (hmem : piece ∈ pieces) : piece <:+: List.intercalate separator pieces := by
  induction pieces with
  | nil => exact absurd hmem List.not_mem_nil
  | cons first more ih =>
      by_cases hmore : more = []
      · rw [hmore, List.mem_singleton] at hmem
        simp [hmore, hmem]
      · rw [List.intercalate_cons_of_ne_nil hmore]
        rcases List.mem_cons.1 hmem with rfl | hmem
        · exact ((List.prefix_append piece separator).trans (List.prefix_append _ _)).isInfix
        · exact (ih hmem).trans (List.suffix_append _ _).isInfix

theorem infix_of_mem_splitOn {mark : Char} {piece : List Char}
    (hmem : piece ∈ splitOn mark chars) : piece <:+: chars := by
  have hinfix : piece <:+: List.intercalate [mark] (splitOn mark chars) := infix_intercalate hmem
  rwa [intercalate_splitOn] at hinfix

/-! ## Lines -/

theorem dropReturn_eq_self {line : List Char} (hend : line.getLast? ≠ some '\r') :
    dropReturn line = line := by
  rw [dropReturn]
  split
  · rename_i rest hreverse
    rw [← List.head?_reverse, hreverse] at hend
    exact absurd rfl hend
  · rfl

/-- A return within a line is kept. -/
theorem dropReturn_append (hfront : front.getLast? ≠ some '\r') (back : List Char) :
    ∃ kept, dropReturn (front ++ back) = front ++ kept ∧ kept <+: back := by
  rcases List.eq_nil_or_concat' back with rfl | ⟨back, last, rfl⟩
  · refine ⟨[], dropReturn_eq_self ?_, List.prefix_rfl⟩
    rwa [List.append_nil]
  · by_cases hreturn : last = '\r'
    · refine ⟨back, ?_, List.prefix_append back [last]⟩
      rw [hreturn, dropReturn, List.reverse_append, List.reverse_append]
      simp
    · refine ⟨back ++ [last], dropReturn_eq_self ?_, List.prefix_rfl⟩
      rw [← List.append_assoc, List.getLast?_concat]
      simpa using hreturn

/-- A line end cuts the lines in two. -/
theorem lines_append_cons (front back : List Char) :
    lines (front ++ '\n' :: back) = (splitOn '\n' front).map dropReturn ++ lines back := by
  have hback := splitOn_ne_nil '\n' back
  rw [lines, splitOn_append_cons, List.dropLast_append_of_ne_nil hback, List.map_append,
    List.getLast?_append_of_ne_nil _ hback, List.append_assoc]
  rfl

theorem lines_of_one_line (hline : '\n' ∉ chars) (hsome : chars ≠ []) : lines chars = [chars] := by
  rw [lines, splitOn_eq, List.splitOn_eq_singleton hline]
  simp [hsome]

/-- What stands in one line goes on in the first line. -/
theorem lines_append (hline : '\n' ∉ front) (hsome : front ≠ [])
    (hreturn : front.getLast? ≠ some '\r') (back : List Char) :
    ∃ kept more, lines (front ++ back) = (front ++ kept) :: more ∧ kept <+: back := by
  by_cases hmem : '\n' ∈ back
  · obtain ⟨kept, later, rfl, hkept⟩ := List.eq_append_cons_of_mem hmem
    obtain ⟨rest, hdropped, hrest⟩ := dropReturn_append hreturn kept
    have hone : '\n' ∉ front ++ kept := by
      rw [List.mem_append, not_or]
      exact ⟨hline, hkept⟩
    refine ⟨rest, lines later, ?_, hrest.trans (List.prefix_append kept _)⟩
    rw [← List.append_assoc, lines_append_cons, splitOn_eq, List.splitOn_eq_singleton hone,
      List.map_singleton, hdropped]
    rfl
  · have hone : '\n' ∉ front ++ back := by
      rw [List.mem_append, not_or]
      exact ⟨hline, hmem⟩
    exact ⟨back, [], lines_of_one_line hone (List.append_ne_nil_of_left_ne_nil hsome back),
      List.prefix_rfl⟩

/-- Lines that are put together are read back, if none ends in a carriage return and the last one
is not empty. -/
theorem lines_intercalate {pieces : List (List Char)} (hline : ∀ piece ∈ pieces, '\n' ∉ piece)
    (hend : ∀ piece ∈ pieces, piece.getLast? ≠ some '\r') (hlast : pieces.getLast? ≠ some []) :
    lines (List.intercalate ['\n'] pieces) = pieces := by
  rcases List.eq_nil_or_concat' pieces with rfl | ⟨front, last, rfl⟩
  · rfl
  · have hsome : last ≠ [] := by simpa using hlast
    have hfront : front.map dropReturn = front := by
      refine (List.map_congr_left fun piece hmem => ?_).trans (List.map_id' front)
      exact dropReturn_eq_self (hend piece (List.mem_append_left _ hmem))
    rw [lines, splitOn_eq, List.splitOn_intercalate _ hline (List.concat_ne_nil last front),
      List.dropLast_concat, List.getLast?_concat, hfront]
    simp [hsome]

/-- The lines of a text without carriage returns that does not end in a line end. -/
theorem lines_eq_splitOn (hsome : chars ≠ []) (hreturn : '\r' ∉ chars)
    (hlast : chars.getLast? ≠ some '\n') : lines chars = splitOn '\n' chars := by
  have hjoined : List.intercalate ['\n'] (splitOn '\n' chars) = chars :=
    intercalate_splitOn '\n' chars
  have hlines : lines (List.intercalate ['\n'] (splitOn '\n' chars)) = splitOn '\n' chars := by
    refine lines_intercalate (fun piece => not_mem_of_mem_splitOn) (fun piece hmem hend => ?_) ?_
    · have hin : '\r' ∈ piece := List.mem_of_getLast? hend
      exact hreturn ((infix_of_mem_splitOn hmem).mem hin)
    · intro hempty
      obtain ⟨front, hpieces⟩ := List.getLast?_eq_some_iff.1 hempty
      rw [hpieces] at hjoined
      rcases front with _ | ⟨first, front⟩
      · exact hsome (by simpa using hjoined.symm)
      · apply hlast
        rw [← hjoined, intercalate_append (List.cons_ne_nil _ _) (List.cons_ne_nil _ _)]
        simp
  rwa [hjoined] at hlines

end SymbolIndex.Text
