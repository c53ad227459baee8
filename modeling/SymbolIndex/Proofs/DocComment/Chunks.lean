import SymbolIndex.Proofs.DocComment.Marks

/-!
# Tags in lines

A tag goes from a line that starts with an at-sign up to the next such line, so
the lines before it have no say in it.  Its words are read one after the other.
-/

namespace SymbolIndex.DocComment

open SymbolIndex.Text

variable {gap word rest : List Char}

/-! ## Words -/

theorem isBlank_eq_false_of_mem_word (hword : word.all isWordChar = true) {c : Char}
    (hmem : c ∈ word) : isBlank c = false := by
  simpa [isWordChar] using List.all_eq_true.1 hword c hmem

theorem head?_word (hword : word.all isWordChar = true) (hsome : word ≠ []) (rest : List Char) :
    (word ++ rest).head?.any isBlank = false := by
  cases word with
  | nil => exact absurd rfl hsome
  | cons c word => exact isBlank_eq_false_of_mem_word hword List.mem_cons_self

/-- A word goes up to the next blank. -/
theorem nextWord_append (hgap : gap.all isBlank = true) (hword : word.all isWordChar = true)
    (hsome : word ≠ []) (hbreaks : Breaks rest) :
    nextWord (gap ++ word ++ rest) = (word, rest) := by
  have hdrop : (gap ++ word ++ rest).dropWhile isBlank = word ++ rest := by
    rw [List.append_assoc, List.dropWhile_append_of_pos (List.all_eq_true.1 hgap)]
    exact dropWhile_isBlank_eq_self (head?_word hword hsome rest)
  have hstop : rest.takeWhile isWordChar = [] ∧ rest.dropWhile isWordChar = rest := by
    cases rest with
    | nil => exact ⟨rfl, rfl⟩
    | cons c rest =>
        have hc : isBlank c = true := hbreaks
        constructor
        · exact List.takeWhile_cons_of_neg (by simp [isWordChar, hc])
        · exact List.dropWhile_cons_of_neg (by simp [isWordChar, hc])
  have hall : ∀ c ∈ word, isWordChar c = true := List.all_eq_true.1 hword
  simp only [nextWord, hdrop, List.takeWhile_append_of_pos hall, List.dropWhile_append_of_pos hall,
    hstop, List.append_nil]

theorem breaks_dropWhile (chars : List Char) : Breaks (chars.dropWhile isWordChar) := by
  have hstop := List.head?_dropWhile_not isWordChar chars
  cases hdrop : chars.dropWhile isWordChar with
  | nil => rfl
  | cons c rest =>
      rw [hdrop] at hstop
      have hc : isWordChar c = false := hstop
      simpa [Breaks, isWordChar] using hc

/-! ## The first word of a tag -/

/-- The word a tag begins with. -/
def keyword : TagKind → String
  | .parameter => "@param"
  | .variableType => "@var"
  | .property => "@property"
  | .propertyRead => "@property-read"
  | .propertyWrite => "@property-write"
  | .returned => "@return"
  | .method => "@method"

theorem nextWord_keyword (kind : TagKind) {rest : List Char} (hrest : Breaks rest) :
    nextWord ((keyword kind).toList ++ rest) = ((keyword kind).toList, rest) := by
  have hword : (keyword kind).toList.all isWordChar = true ∧ (keyword kind).toList ≠ [] := by
    cases kind <;> decide
  exact @nextWord_append [] (keyword kind).toList rest rfl hword.1 hword.2 hrest

/-- How the words behind the first are read. -/
def wordsTag? : TagKind → List Char → Option DocTag
  | .variableType => typeTag?
  | .returned => returnTag?
  | .method => methodTag?
  | kind => variableTag? kind

theorem tag?_keyword (kind : TagKind) {rest : List Char} (hrest : Breaks rest) :
    tag? ((keyword kind).toList ++ rest) = wordsTag? kind rest := by
  rw [tag?]
  simp only [nextWord_keyword kind hrest, String.ofList_toList]
  cases kind <;> simp only [keyword, wordsTag?]

/-! ## Lines of a tag -/

variable {line : List Char} {front back more : List (List Char)}

theorem startsTag_append (hgap : gap.all isBlank = true) (rest : List Char) :
    startsTag (gap ++ '@' :: rest) = true := by
  rw [startsTag, List.dropWhile_append_of_pos (List.all_eq_true.1 hgap),
    List.dropWhile_cons_of_neg (by decide)]
  rfl

theorem chunks_cons_of_startsTag (hline : startsTag line = true) :
    chunks (line :: more) = joinLines (trim line :: textLines more) :: chunks more :=
  if_pos hline

/-- Lines that start no tag belong to what is before them. -/
theorem chunks_append_of_text (hfront : ∀ line ∈ front, startsTag line = false) :
    chunks (front ++ back) = chunks back := by
  induction front with
  | nil => rfl
  | cons line front ih =>
      obtain ⟨hline, hfront⟩ := List.forall_mem_cons.1 hfront
      rw [List.cons_append, chunks, if_neg (by simp [hline]), ih hfront]

theorem textLines_append_of_text (hfront : ∀ line ∈ front, startsTag line = false) :
    textLines (front ++ back) = front ++ textLines back :=
  List.takeWhile_append_of_pos fun line hmem => by simp [hfront line hmem]

theorem textLines_cons_of_startsTag (hline : startsTag line = true) :
    textLines (line :: more) = [] :=
  List.takeWhile_cons_of_neg (by simp [hline])

/-- The tags of later lines are among the tags. -/
theorem chunks_suffix (front back : List (List Char)) : chunks back <:+ chunks (front ++ back) := by
  induction front with
  | nil => exact List.suffix_rfl
  | cons line front ih =>
      rw [List.cons_append, chunks]
      split
      · exact ih.trans (List.suffix_cons _ _)
      · exact ih

/-! ## Tags in comments -/

/-- Where a tag can stand in a comment: behind the opening, or in a later line behind its margin
and perhaps a star. -/
inductive TagPlace : List Char → Prop
  | opening {gap : List Char} (hgap : gap.all isSpaceOrTab = true) :
      TagPlace ("/**".toList ++ gap)
  | line (before : List Char) {margin : List Char} (hmargin : margin.all isSpaceOrTab = true) :
      TagPlace (before ++ '\n' :: margin)
  | starred (before : List Char) {margin gap : List Char}
      (hmargin : margin.all isSpaceOrTab = true) (hgap : gap.all isSpaceOrTab = true) :
      TagPlace (before ++ '\n' :: (margin ++ '*' :: gap))

/-- A beginning of a line that is blank, behind earlier lines. -/
inductive LineStart : List Char → Prop
  | first {gap : List Char} (hgap : gap.all isSpaceOrTab = true) : LineStart gap
  | later (front : List Char) {gap : List Char} (hgap : gap.all isSpaceOrTab = true) :
      LineStart (front ++ '\n' :: gap)

theorem markLength?_at_sign {lineStart : Bool} {margin : List Char}
    (hmargin : margin.all isSpaceOrTab = true) (rest : List Char) :
    markLength? lineStart (margin ++ '@' :: rest) = none := by
  have hopens : openingLength? (margin ++ '@' :: rest) = none :=
    openingLength?_eq_none (head?_spaces_append_ne hmargin (by simp))
  have hcloses : closingLength? (margin ++ '@' :: rest) = none :=
    closingLength?_blanks_append (isBlank_of_mem_spaces hmargin) rfl (by simp)
  have hstar : starLength? (margin ++ '@' :: rest) = none := by
    have hat : ('@' :: rest).head?.any isSpaceOrTab = false := rfl
    simp only [starLength?, dropWhile_isSpaceOrTab hmargin hat]
    rfl
  rw [markLength?, hopens, hcloses, hstar]
  cases lineStart <;> rfl

/-- The at-sign of a tag is kept with the blanks before it. -/
theorem dropMarks_at_sign {lineStart : Bool} {margin : List Char}
    (hmargin : margin.all isSpaceOrTab = true) (rest : List Char) :
    dropMarks 0 lineStart (margin ++ '@' :: rest) = margin ++ '@' :: dropMarks 0 false rest := by
  induction margin generalizing lineStart with
  | nil => exact dropMarks_cons_of_none (markLength?_at_sign hmargin rest)
  | cons c margin ih =>
      have hmark : markLength? lineStart (c :: (margin ++ '@' :: rest)) = none :=
        markLength?_at_sign hmargin rest
      rw [List.all_cons, Bool.and_eq_true] at hmargin
      rw [List.cons_append, dropMarks_cons_of_none hmark, ih hmargin.2, List.cons_append]

/-- Where a tag can stand, the marks before it are left out and a blank beginning of a line is
kept. -/
theorem TagPlace.exists_lineStart {place : List Char} (hplace : TagPlace place)
    (rest : List Char) : ∃ start, LineStart start ∧
      dropMarks 0 true (place ++ '@' :: rest) = start ++ '@' :: dropMarks 0 false rest := by
  cases hplace with
  | opening hgap =>
      refine ⟨[], .first rfl, ?_⟩
      rw [dropMarks_opening hgap rfl]
      exact @dropMarks_at_sign false [] rfl rest
  | @line before margin hmargin =>
      have hblanks : ∀ c ∈ '\n' :: margin, isBlank c = true :=
        List.forall_mem_cons.2 ⟨by decide, isBlank_of_mem_spaces hmargin⟩
      have hcloses : closingLength? ('\n' :: (margin ++ '@' :: rest)) = none :=
        closingLength?_blanks_append hblanks rfl (by simp)
      obtain ⟨kept, hkept⟩ := @dropMarks_append_lineEnd before _ true hcloses 0 (Nat.zero_le _)
      refine ⟨kept ++ '\n' :: margin, .later kept hmargin, ?_⟩
      rw [List.append_assoc, List.cons_append, hkept, dropMarks_at_sign hmargin, List.append_assoc,
        List.cons_append]
  | @starred before margin gap hmargin hgap =>
      have hat : (gap ++ '@' :: rest).head? ≠ some '/' := head?_spaces_append_ne hgap (by simp)
      have hblanks : ∀ c ∈ '\n' :: margin, isBlank c = true :=
        List.forall_mem_cons.2 ⟨by decide, isBlank_of_mem_spaces hmargin⟩
      have hcloses : closingLength? ('\n' :: (margin ++ '*' :: gap ++ '@' :: rest)) = none := by
        rw [List.append_assoc]
        exact closingLength?_blanks_append hblanks rfl (not_prefix_star_cons hat)
      have htail : gap.tail.all isSpaceOrTab = true :=
        List.all_eq_true.2 fun c hmem => List.all_eq_true.1 hgap c (List.mem_of_mem_tail hmem)
      have hstar : dropMarks 0 true (margin ++ '*' :: gap ++ '@' :: rest) =
          gap.tail ++ '@' :: dropMarks 0 false rest := by
        rw [← dropMarks_at_sign htail rest]
        cases gap with
        | nil => exact @dropMarks_star margin [] _ hmargin rfl rfl hat
        | cons c gap =>
            rw [List.all_cons, Bool.and_eq_true] at hgap
            have hone : [c].all isSpaceOrTab = true := by simpa using hgap.1
            have hdropped := @dropMarks_star margin [c] (gap ++ '@' :: rest) hmargin hone
              (if_pos hgap.1).symm hat
            rwa [← List.append_assoc, List.append_assoc margin] at hdropped
      obtain ⟨kept, hkept⟩ := @dropMarks_append_lineEnd before _ true hcloses 0 (Nat.zero_le _)
      refine ⟨kept ++ '\n' :: gap.tail, .later kept htail, ?_⟩
      rw [List.append_assoc, List.cons_append, hkept, hstar, List.append_assoc, List.cons_append]

/-- The line of a tag is among the lines that are left when the outer blanks are taken off. -/
theorem LineStart.exists_lines {start : List Char} (hstart : LineStart start) (body : List Char) :
    ∃ earlier gap, gap.all isSpaceOrTab = true ∧
      lines (start.dropWhile isBlank ++ body) = earlier ++ lines (gap ++ body) := by
  cases hstart with
  | first hgap =>
      refine ⟨[], [], rfl, ?_⟩
      rw [List.dropWhile_eq_nil_iff.2 (isBlank_of_mem_spaces hgap)]
      rfl
  | @later front gap hgap =>
      rw [List.dropWhile_append]
      split
      · refine ⟨[], [], rfl, ?_⟩
        rw [List.dropWhile_cons_of_pos (by decide),
          List.dropWhile_eq_nil_iff.2 (isBlank_of_mem_spaces hgap)]
        rfl
      · refine ⟨(splitOn '\n' (front.dropWhile isBlank)).map dropReturn, gap, hgap, ?_⟩
        rw [List.append_assoc, List.cons_append, lines_append_cons]

theorem joinLines_append_cons (front line : List Char) (more : List (List Char)) :
    joinLines ((front ++ line) :: more) = front ++ joinLines (line :: more) := by
  cases more with
  | nil => simp [joinLines]
  | cons next more => simp [joinLines, List.intercalate_cons_cons]

theorem Breaks.of_prefix {chars kept : List Char} (hbreaks : Breaks chars)
    (hkept : kept <+: chars) : Breaks kept := by
  obtain ⟨rest, rfl⟩ := hkept
  cases kept with
  | nil => rfl
  | cons c kept => exact hbreaks

theorem Breaks.joinLines {line : List Char} (hbreaks : Breaks line) (more : List (List Char)) :
    Breaks (joinLines (line :: more)) := by
  cases line with
  | nil => cases more <;> rfl
  | cons c line =>
      have hjoined := joinLines_append_cons [c] line more
      rw [List.singleton_append] at hjoined
      rw [hjoined]
      exact hbreaks

/-- A tag on one line of a comment begins a chunk, which goes on with what stands behind it. -/
theorem TagPlace.exists_chunk {place text after : List Char} (hplace : TagPlace place)
    (hat : text.head? = some '@') (hline : '\n' ∉ text) (hback : text.getLast?.any isBlank = false)
    (hopen : ¬ ['*', '/'] <:+ text) (hafter : Breaks after) : ∃ tail, Breaks tail ∧
      text ++ tail ∈ chunks (lines (content (place ++ text ++ after))) := by
  obtain ⟨body, rfl⟩ := List.head?_eq_some_iff.1 hat
  let text := '@' :: body
  have htext : trim text = text := trim_eq_self_iff.2 ⟨rfl, hback⟩
  have hsome : text ≠ [] := List.cons_ne_nil _ _
  have hkept : dropMarks 0 false (body ++ after) = body ++ dropMarks 0 false after := by
    have hend : body.getLast?.any isBlank = false := by
      cases body with
      | nil => rfl
      | cons c body => rwa [List.getLast?_cons_cons] at hback
    refine dropMarks_append (fun hmem => hline (List.mem_cons_of_mem _ hmem)) hend
      (fun hsuffix => hopen (hsuffix.trans (List.suffix_cons _ _))) ?_
    intro hslash
    rw [Breaks, hslash] at hafter
    exact absurd hafter (by decide)
  let back := (dropMarks 0 false after).rdropWhile isBlank
  have hbreaks : Breaks back := hafter.dropMarks.of_prefix (List.rdropWhile_prefix isBlank _)
  obtain ⟨start, hstart, hdropped⟩ := hplace.exists_lineStart (body ++ after)
  have hcontent : content (place ++ text ++ after) = start.dropWhile isBlank ++ (text ++ back) := by
    have hshape : place ++ text ++ after = place ++ '@' :: (body ++ after) := by simp [text]
    rw [content, hshape, hdropped, hkept]
    exact trim_append htext hsome
  obtain ⟨earlier, gap, hgap, hlines⟩ := hstart.exists_lines (text ++ back)
  have hone : '\n' ∉ gap ++ text := by
    rw [List.mem_append, not_or]
    exact ⟨fun hmem => absurd (List.all_eq_true.1 hgap _ hmem) (by decide), hline⟩
  have hreturn : (gap ++ text).getLast? ≠ some '\r' := by
    intro hend
    rw [List.getLast?_append_of_ne_nil _ hsome] at hend
    rw [hend] at hback
    exact absurd hback (by decide)
  obtain ⟨kept, more, hfirst, hprefix⟩ :=
    lines_append hone (List.append_ne_nil_of_right_ne_nil gap hsome) hreturn back
  have hstarts : startsTag (gap ++ text ++ kept) = true := by
    rw [List.append_assoc]
    exact startsTag_append (List.all_eq_true.2 (isBlank_of_mem_spaces hgap)) _
  have htrim : trim (gap ++ text ++ kept) = text ++ kept.rdropWhile isBlank := by
    rw [List.append_assoc, trim_append htext hsome,
      List.dropWhile_eq_nil_iff.2 (isBlank_of_mem_spaces hgap), List.nil_append]
  refine ⟨joinLines (kept.rdropWhile isBlank :: textLines more), ?_, ?_⟩
  · have hrest : Breaks kept := hbreaks.of_prefix hprefix
    exact (hrest.of_prefix (List.rdropWhile_prefix isBlank _)).joinLines _
  · rw [hcontent, hlines, ← List.append_assoc, hfirst]
    apply (chunks_suffix earlier _).mem
    rw [chunks_cons_of_startsTag hstarts, htrim, joinLines_append_cons]
    exact List.mem_cons_self

end SymbolIndex.DocComment
