import SymbolIndex.DocComment
import SymbolIndex.Proofs.Text.Lines

/-!
# Comment marks

The marks of a comment are its opening, its closing, and the stars its lines
start with.  A mark stays within its line but for the blanks before a closing,
so what comes before a line has no say in how the line is read, and a text that
does not look like a closing is kept as it is.
-/

namespace SymbolIndex.DocComment

open SymbolIndex.Text

variable {chars margin gap text front rest : List Char} {lineStart : Bool} {length : Nat}

/-! ## Each mark -/

theorem isBlank_of_isSpaceOrTab {c : Char} (h : isSpaceOrTab c = true) : isBlank c = true := by
  simp only [isSpaceOrTab, Bool.or_eq_true, beq_iff_eq] at h
  rcases h with rfl | rfl <;> decide

/-- A closing is a star and a slash at the end of a line, with the blanks before them. -/
theorem closingLength?_eq_some_iff : closingLength? chars = some length ↔
    ∃ margin rest, chars = margin ++ '*' :: '/' :: rest ∧ margin.all isBlank = true ∧
      rest.head?.all (· == '\n') = true ∧ length = margin.length + 2 := by
  constructor
  · intro hmark
    refine ⟨chars.takeWhile isBlank, (chars.dropWhile isBlank).drop 2, ?_⟩
    have hall : (chars.takeWhile isBlank).all isBlank = true := List.all_takeWhile
    rw [closingLength?] at hmark
    split at hmark
    · rename_i rest hdrop
      split at hmark
      · rename_i hhead
        refine ⟨?_, hall, by rwa [hdrop], (Option.some.inj hmark).symm⟩
        conv_lhs => rw [← List.takeWhile_append_dropWhile (p := isBlank) (l := chars), hdrop]
        rw [hdrop]
        rfl
      · cases hmark
    · cases hmark
  · rintro ⟨margin, rest, rfl, hmargin, hhead, rfl⟩
    have hblank : ∀ c ∈ margin, isBlank c = true := List.all_eq_true.1 hmargin
    have hstar : isBlank '*' = false := by decide
    rw [closingLength?, List.dropWhile_append_of_pos hblank, List.takeWhile_append_of_pos hblank,
      List.dropWhile_cons_of_neg (by simp [hstar]), List.takeWhile_cons_of_neg (by simp [hstar]),
      List.append_nil]
    exact if_pos hhead

theorem isBlank_of_mem_spaces {spaces : List Char} (hspaces : spaces.all isSpaceOrTab = true) :
    ∀ c ∈ spaces, isBlank c = true :=
  fun c hmem => isBlank_of_isSpaceOrTab (List.all_eq_true.1 hspaces c hmem)

/-- Blanks before something else than a star and a slash are no closing. -/
theorem closingLength?_blanks_append {blanks : List Char} (hblanks : ∀ c ∈ blanks, isBlank c = true)
    (hrest : rest.head?.any isBlank = false) (hnot : ¬ ['*', '/'] <+: rest) :
    closingLength? (blanks ++ rest) = none := by
  rw [closingLength?, List.dropWhile_append_of_pos hblanks, dropWhile_isBlank_eq_self hrest]
  split
  · rename_i more
    exact absurd ⟨more, rfl⟩ hnot
  · rfl

theorem not_prefix_star_cons (hrest : rest.head? ≠ some '/') : ¬ ['*', '/'] <+: '*' :: rest := by
  rw [List.cons_prefix_cons]
  rintro ⟨-, more, hmore⟩
  exact hrest (by rw [← hmore]; rfl)

theorem head?_spaces_append_ne {spaces : List Char} (hspaces : spaces.all isSpaceOrTab = true)
    (hrest : rest.head? ≠ some '/') : (spaces ++ rest).head? ≠ some '/' := by
  cases spaces with
  | nil => exact hrest
  | cons c spaces =>
      rintro ⟨⟩
      exact absurd (List.all_eq_true.1 hspaces '/' List.mem_cons_self) (by decide)

theorem openingLength?_eq_none (h : chars.head? ≠ some '/') : openingLength? chars = none := by
  cases chars with
  | nil => rfl
  | cons c rest =>
      have hslash : ('/' == c) = false := by
        rw [beq_eq_false_iff_ne]
        rintro rfl
        exact h rfl
      simp [openingLength?, List.isPrefixOf?, hslash]

theorem markLength?_false (chars : List Char) :
    markLength? false chars = closingLength? chars := by
  rw [markLength?]
  cases closingLength? chars <;> rfl

/-! ## Leaving marks out -/

/-- A character with no mark before it is kept. -/
theorem dropMarks_cons {c : Char}
    (hmark : ∀ length, markLength? lineStart (c :: rest) ≠ some (length + 1)) :
    dropMarks 0 lineStart (c :: rest) = c :: dropMarks 0 (c == '\n') rest := by
  rw [dropMarks]
  split
  · rename_i length hlength
    exact absurd hlength (hmark length)
  · rfl

theorem dropMarks_cons_of_none {c : Char} (hmark : markLength? lineStart (c :: rest) = none) :
    dropMarks 0 lineStart (c :: rest) = c :: dropMarks 0 (c == '\n') rest :=
  dropMarks_cons fun _ => by simp [hmark]

theorem dropMarks_of_mark (hmark : markLength? lineStart chars = some (length + 1)) :
    dropMarks 0 lineStart chars = dropMarks (length + 1) lineStart chars := by
  cases chars with
  | nil => rfl
  | cons c rest =>
      conv_lhs => rw [dropMarks, hmark]
      rfl

/-- A mark is skipped to its end. -/
theorem dropMarks_skip (front rest : List Char) (lineStart : Bool) :
    dropMarks front.length lineStart (front ++ rest) =
      dropMarks 0 (front.getLast?.elim lineStart (· == '\n')) rest := by
  induction front generalizing lineStart with
  | nil => rfl
  | cons c front ih =>
      rw [List.length_cons, List.cons_append, dropMarks, ih]
      cases front with
      | nil => rfl
      | cons next front => rw [List.getLast?_cons_cons]; rfl

/-- A mark is left out as a whole. -/
theorem dropMarks_append_of_mark {mark : List Char} (hsome : mark ≠ [])
    (hend : mark.getLast? ≠ some '\n')
    (hmark : markLength? lineStart (mark ++ rest) = some mark.length) :
    dropMarks 0 lineStart (mark ++ rest) = dropMarks 0 false rest := by
  obtain ⟨front, last, rfl⟩ := (List.eq_nil_or_concat' mark).resolve_left hsome
  have hlast : (last == '\n') = false := by simpa using hend
  rw [List.length_append, List.length_singleton] at hmark
  rw [dropMarks_of_mark hmark]
  have hskip := dropMarks_skip (front ++ [last]) rest lineStart
  rwa [List.length_append, List.length_singleton, List.getLast?_concat, Option.elim_some,
    hlast] at hskip

theorem getLast?_ne_lineEnd (hgap : gap.all isSpaceOrTab = true)
    (hfront : front.getLast? ≠ some '\n') : (front ++ gap).getLast? ≠ some '\n' := by
  rw [List.getLast?_append]
  cases hlast : gap.getLast? with
  | none => exact hfront
  | some c =>
      have hblank : isSpaceOrTab c = true := List.all_eq_true.1 hgap c (List.mem_of_getLast? hlast)
      rintro ⟨⟩
      exact absurd hblank (by decide)

theorem takeWhile_isSpaceOrTab (hgap : gap.all isSpaceOrTab = true)
    (hrest : rest.head?.any isSpaceOrTab = false) : (gap ++ rest).takeWhile isSpaceOrTab = gap := by
  rw [List.takeWhile_append_of_pos (List.all_eq_true.1 hgap)]
  cases rest with
  | nil => exact List.append_nil gap
  | cons c rest => rw [List.takeWhile_cons_of_neg (by simpa using hrest), List.append_nil]

theorem dropWhile_isSpaceOrTab (hgap : gap.all isSpaceOrTab = true)
    (hrest : rest.head?.any isSpaceOrTab = false) :
    (gap ++ rest).dropWhile isSpaceOrTab = rest := by
  rw [List.dropWhile_append_of_pos (List.all_eq_true.1 hgap)]
  cases rest with
  | nil => rfl
  | cons c rest => rw [List.dropWhile_cons_of_neg (by simpa using hrest)]

/-- The opening goes up to what is no space and no tab. -/
theorem dropMarks_opening (hgap : gap.all isSpaceOrTab = true)
    (hrest : rest.head?.any isSpaceOrTab = false) :
    dropMarks 0 true ("/**".toList ++ gap ++ rest) = dropMarks 0 false rest := by
  have hopens : "/**".toList.isPrefixOf? ("/**".toList ++ gap ++ rest) = some (gap ++ rest) := by
    simp [List.isPrefixOf?]
  have hlength : openingLength? ("/**".toList ++ gap ++ rest) =
      some ("/**".toList ++ gap).length := by
    rw [openingLength?, hopens, Option.map_some, takeWhile_isSpaceOrTab hgap hrest,
      List.length_append]
    rfl
  refine dropMarks_append_of_mark (by simp) (getLast?_ne_lineEnd hgap (by decide)) ?_
  rw [markLength?, if_pos rfl, hlength, Option.some_or]

/-- A star at the start of a line is left out with its margin and one blank behind it. -/
theorem starLength?_eq (hmargin : margin.all isSpaceOrTab = true) (rest : List Char) :
    starLength? (margin ++ '*' :: rest) =
      some (margin.length + 1 + if rest.head?.any isSpaceOrTab then 1 else 0) := by
  have hstar : ('*' :: rest).head?.any isSpaceOrTab = false := rfl
  simp only [starLength?, dropWhile_isSpaceOrTab hmargin hstar,
    takeWhile_isSpaceOrTab hmargin hstar]

/-- The star of a line takes the blanks before it and one blank behind it. -/
theorem dropMarks_star (hmargin : margin.all isSpaceOrTab = true)
    (hgap : gap.all isSpaceOrTab = true)
    (hone : gap.length = if (gap ++ rest).head?.any isSpaceOrTab then 1 else 0)
    (hslash : (gap ++ rest).head? ≠ some '/') :
    dropMarks 0 true (margin ++ '*' :: gap ++ rest) = dropMarks 0 false rest := by
  have hopens : openingLength? (margin ++ '*' :: gap ++ rest) = none := by
    rw [List.append_assoc]
    exact openingLength?_eq_none (head?_spaces_append_ne hmargin (by simp))
  have hcloses : closingLength? (margin ++ '*' :: gap ++ rest) = none := by
    rw [List.append_assoc]
    exact closingLength?_blanks_append (isBlank_of_mem_spaces hmargin) rfl
      (not_prefix_star_cons hslash)
  refine dropMarks_append_of_mark (by simp) ?_ ?_
  · have hstar : (margin ++ ['*']).getLast? ≠ some '\n' := by
      rw [List.getLast?_concat]
      decide
    rw [List.append_cons]
    exact getLast?_ne_lineEnd hgap hstar
  · rw [markLength?, if_pos rfl, hopens, hcloses, if_pos rfl, Option.none_or, Option.none_or,
      List.append_assoc, List.cons_append, starLength?_eq hmargin, ← hone, List.length_append,
      List.length_cons]
    congr 1
    omega

/-- A line end is kept, unless a closing follows it. -/
theorem dropMarks_lineEnd (hcloses : closingLength? ('\n' :: rest) = none) :
    dropMarks 0 lineStart ('\n' :: rest) = '\n' :: dropMarks 0 true rest := by
  apply dropMarks_cons_of_none
  have hopens : openingLength? ('\n' :: rest) = none := openingLength?_eq_none (by simp)
  have hstar : starLength? ('\n' :: rest) = none := rfl
  rw [markLength?, hopens, hcloses, hstar]
  cases lineStart <;> rfl

/-! ## Texts without marks -/

/-- No closing begins in the rest of a line that does not end like one. -/
theorem closingLength?_append_eq_none (hsome : text ≠ []) (hline : '\n' ∉ text)
    (hback : text.getLast?.any isBlank = false) (hopen : ¬ ['*', '/'] <:+ text)
    (hrest : rest.head? ≠ some '/') : closingLength? (text ++ rest) = none := by
  have hnot : ¬ text.all isBlank = true := by
    intro hall
    have hlast := List.all_eq_true.1 hall _ (List.getLast_mem hsome)
    rw [List.getLast?_eq_some_getLast hsome, Option.any_some, hlast] at hback
    cases hback
  rw [Option.eq_none_iff_forall_ne_some]
  intro length hmark
  obtain ⟨margin, more, heq, hmargin, hhead, -⟩ := closingLength?_eq_some_iff.1 hmark
  rcases List.append_eq_append_iff.1 heq with ⟨between, rfl, -⟩ | ⟨between, rfl, hmore⟩
  · -- The text ends within the blanks before the closing.
    rw [List.all_append, Bool.and_eq_true] at hmargin
    exact hnot hmargin.1
  · -- The closing begins in the text, and ends behind it.
    rcases between with _ | ⟨star, _ | ⟨slash, _ | ⟨next, between⟩⟩⟩
    · rw [List.append_nil] at hnot
      exact hnot hmargin
    · obtain ⟨-, rfl⟩ := List.cons.inj hmore
      exact hrest rfl
    · obtain ⟨rfl, htail⟩ := List.cons.inj hmore
      obtain ⟨rfl, -⟩ := List.cons.inj htail
      exact hopen (List.suffix_append margin _)
    · obtain ⟨-, htail⟩ := List.cons.inj hmore
      obtain ⟨-, rfl⟩ := List.cons.inj htail
      have hend : next = '\n' := by simpa using hhead
      exact hline (by simp [hend])

/-- A text within a line that ends in no blank, and in no closing, is kept. -/
theorem dropMarks_append (hline : '\n' ∉ text) (hback : text.getLast?.any isBlank = false)
    (hopen : ¬ ['*', '/'] <:+ text) (hrest : rest.head? ≠ some '/') :
    dropMarks 0 false (text ++ rest) = text ++ dropMarks 0 false rest := by
  induction text with
  | nil => rfl
  | cons c text ih =>
      have hcloses : closingLength? (c :: text ++ rest) = none :=
        closingLength?_append_eq_none (List.cons_ne_nil c text) hline hback hopen hrest
      have hend : (c == '\n') = false := by
        rw [beq_eq_false_iff_ne]
        rintro rfl
        exact hline List.mem_cons_self
      have hlater : text.getLast?.any isBlank = false := by
        cases text with
        | nil => rfl
        | cons next text => rwa [List.getLast?_cons_cons] at hback
      rw [← markLength?_false, List.cons_append] at hcloses
      rw [List.cons_append, dropMarks_cons_of_none hcloses, hend,
        ih (fun hmem => hline (List.mem_cons_of_mem c hmem)) hlater
          (fun hsuffix => hopen (hsuffix.trans (List.suffix_cons c text)))]
      rfl

/-! ## What comes before a line and after a word -/

theorem not_mem_takeWhile_isSpaceOrTab (chars : List Char) :
    '\n' ∉ chars.takeWhile isSpaceOrTab := by
  intro hmem
  have hspace : isSpaceOrTab '\n' = true := List.all_eq_true.1 List.all_takeWhile _ hmem
  exact absurd hspace (by decide)

/-- No opening goes beyond a line. -/
theorem openingLength?_within_line (hmark : openingLength? chars = some length) :
    ∃ mark rest, chars = mark ++ rest ∧ '\n' ∉ mark ∧ length = mark.length := by
  obtain ⟨more, hopens, rfl⟩ := Option.map_eq_some_iff.1 hmark
  rw [List.isPrefixOf?_eq_some_iff_append_eq] at hopens
  refine ⟨"/**".toList ++ more.takeWhile isSpaceOrTab, more.dropWhile isSpaceOrTab, ?_, ?_, ?_⟩
  · rw [List.append_assoc, List.takeWhile_append_dropWhile, hopens]
  · rw [List.mem_append, not_or]
    exact ⟨by decide, not_mem_takeWhile_isSpaceOrTab more⟩
  · rw [List.length_append]
    rfl

/-- No star goes beyond a line. -/
theorem starLength?_within_line (hmark : starLength? chars = some length) :
    ∃ mark rest, chars = mark ++ rest ∧ '\n' ∉ mark ∧ length = mark.length := by
  have hmargin := not_mem_takeWhile_isSpaceOrTab chars
  have hchars : chars.takeWhile isSpaceOrTab ++ chars.dropWhile isSpaceOrTab = chars :=
    List.takeWhile_append_dropWhile
  rw [starLength?] at hmark
  split at hmark
  · rename_i more hdrop
    obtain rfl := Option.some.inj hmark
    rw [hdrop] at hchars
    by_cases hspace : more.head?.any isSpaceOrTab = true
    · obtain ⟨c, more, rfl⟩ : ∃ c rest, more = c :: rest := by
        cases more with
        | nil => cases hspace
        | cons c rest => exact ⟨c, rest, rfl⟩
      have hc : '\n' ≠ c := by
        rintro rfl
        cases hspace
      exact ⟨chars.takeWhile isSpaceOrTab ++ ['*', c], more, by simp [hchars],
        by simp [hmargin, hc], by rw [if_pos hspace, List.length_append]; rfl⟩
    · exact ⟨chars.takeWhile isSpaceOrTab ++ ['*'], more, by simp [hchars], by simp [hmargin],
        by simp [hspace]⟩
  · cases hmark

/-- A mark that begins before a line end is over there, unless a closing follows the line end. -/
theorem markLength?_le (hcloses : closingLength? ('\n' :: rest) = none)
    (hmark : markLength? lineStart (front ++ '\n' :: rest) = some length) :
    length ≤ front.length := by
  have hwithin : (∃ mark more, front ++ '\n' :: rest = mark ++ more ∧ '\n' ∉ mark ∧
      length = mark.length) → length ≤ front.length := by
    rintro ⟨mark, more, heq, hline, rfl⟩
    rcases List.append_eq_append_iff.1 heq with ⟨between, rfl, hmore⟩ | ⟨between, rfl, -⟩
    · cases between with
      | nil => simp
      | cons c between =>
          obtain ⟨rfl, -⟩ := List.cons.inj hmore
          exact absurd (List.mem_append_right front List.mem_cons_self) hline
    · simp
  have hclosing : closingLength? (front ++ '\n' :: rest) = some length → length ≤ front.length := by
    intro hmark
    obtain ⟨margin, more, heq, hmargin, hhead, rfl⟩ := closingLength?_eq_some_iff.1 hmark
    rcases List.append_eq_append_iff.1 heq with ⟨between, rfl, hmore⟩ | ⟨between, rfl, hmore⟩
    · -- The blanks before the closing reach over the line end.
      rw [List.all_append, Bool.and_eq_true] at hmargin
      have hlater := closingLength?_eq_some_iff.2 ⟨between, more, hmore, hmargin.2, hhead, rfl⟩
      rw [hcloses] at hlater
      cases hlater
    · rcases between with _ | ⟨star, _ | ⟨slash, between⟩⟩
      · cases hmore
      · cases hmore
      · simp
  rw [markLength?, Option.or_eq_some_iff, Option.or_eq_some_iff] at hmark
  rcases hmark with hmark | ⟨-, hmark | ⟨-, hmark⟩⟩
  · cases lineStart with
    | false => cases hmark
    | true => exact hwithin (openingLength?_within_line hmark)
  · exact hclosing hmark
  · cases lineStart with
    | false => cases hmark
    | true => exact hwithin (starLength?_within_line hmark)

/-- What comes before a line end has no say in how the next line is read. -/
theorem dropMarks_append_lineEnd (hcloses : closingLength? ('\n' :: rest) = none) {skip : Nat}
    (hskip : skip ≤ front.length) : ∃ kept, dropMarks skip lineStart (front ++ '\n' :: rest) =
      kept ++ '\n' :: dropMarks 0 true rest := by
  -- What is skipped is always over before the line end, which `markLength?_le` keeps up.
  induction front generalizing skip lineStart with
  | nil =>
      rw [Nat.le_zero.1 hskip]
      exact ⟨[], dropMarks_lineEnd hcloses⟩
  | cons c front ih =>
      rw [List.cons_append]
      cases skip with
      | succ skip => exact ih (Nat.le_of_succ_le_succ hskip)
      | zero =>
          by_cases hmark : ∃ length, markLength? lineStart (c :: (front ++ '\n' :: rest)) =
              some (length + 1)
          · obtain ⟨length, hlength⟩ := hmark
            have hle : length + 1 ≤ (c :: front).length := markLength?_le hcloses hlength
            rw [dropMarks_of_mark hlength]
            exact ih (Nat.le_of_succ_le_succ hle)
          · obtain ⟨kept, hkept⟩ := @ih (c == '\n') 0 (Nat.zero_le _)
            refine ⟨c :: kept, ?_⟩
            rw [dropMarks_cons (fun length hlength => hmark ⟨length, hlength⟩), hkept]
            rfl

/-- A text that ends or goes on with a blank. -/
def Breaks (chars : List Char) : Prop :=
  chars.head?.all isBlank = true

/-- A word does not get longer when marks behind it are left out. -/
theorem Breaks.dropMarks (hbreaks : Breaks chars) : Breaks (dropMarks 0 false chars) := by
  induction hlength : chars.length using Nat.strong_induction_on generalizing chars with
  | _ n ih =>
    cases chars with
    | nil => rfl
    | cons c rest =>
        cases hmark : closingLength? (c :: rest) with
        | none =>
            rw [dropMarks_cons_of_none ((markLength?_false _).trans hmark)]
            exact hbreaks
        | some length =>
            obtain ⟨margin, more, heq, -, hhead, rfl⟩ := closingLength?_eq_some_iff.1 hmark
            have hmarked : c :: rest = margin ++ ['*', '/'] ++ more := by simpa using heq
            rw [hmarked] at hmark hlength ⊢
            rw [dropMarks_append_of_mark (by simp) (by simp)
              ((markLength?_false _).trans (hmark.trans (by simp)))]
            refine ih more.length (by simp at hlength; omega) ?_ rfl
            cases more with
            | nil => rfl
            | cons next more =>
              have hend : next = '\n' := by simpa using hhead
              rw [hend]
              rfl

end SymbolIndex.DocComment
