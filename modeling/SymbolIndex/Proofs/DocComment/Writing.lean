import SymbolIndex.Proofs.DocComment.Chunks
import SymbolIndex.Proofs.Text.Occurrences

/-!
# Comments that are written

A comment is written from a text and its tags, with one line behind a star for
each of their lines.  Reading it gives the text and the tags back, whatever
stars, at-signs and dollar signs the text and the descriptions hold within their
lines.
-/

namespace SymbolIndex.DocComment

open SymbolIndex.Text

/-! ## Lines in a comment -/

/-- A line behind its star. -/
def starred (line : List Char) : List Char :=
  " * ".toList ++ line ++ ['\n']

/-- Lines between an opening and a closing. -/
def around (lines : List (List Char)) : List Char :=
  "/**\n".toList ++ lines.flatMap starred ++ " */".toList

/-- A line that a comment keeps as it is. -/
structure Plain (line : List Char) : Prop where
  one_line : '\n' ∉ line
  back : line.getLast?.any isBlank = false
  not_closed : ¬ ['*', '/'] <:+ line

/-- Lines that begin and end with something else than blanks. -/
structure Framed (pieces : List (List Char)) : Prop where
  trimmed : trim (joinLines pieces) = joinLines pieces
  nil_of_joined : joinLines pieces = [] → pieces = []

theorem Framed.append {left right : List (List Char)} (hleft : Framed left)
    (hright : Framed right) : Framed (left ++ right) := by
  by_cases hnil : left = []
  · rwa [hnil]
  by_cases hnil' : right = []
  · rwa [hnil', List.append_nil]
  have hjoined : joinLines (left ++ right) = joinLines left ++ ('\n' :: joinLines right) :=
    intercalate_append hnil hnil'
  have hfirst : joinLines left ≠ [] := mt hleft.nil_of_joined hnil
  have hlast : joinLines right ≠ [] := mt hright.nil_of_joined hnil'
  constructor
  · rw [trim_eq_self_iff, hjoined, List.head?_append_of_ne_nil _ hfirst, List.append_cons,
      List.getLast?_append_of_ne_nil _ hlast]
    exact ⟨(trim_eq_self_iff.1 hleft.trimmed).1, (trim_eq_self_iff.1 hright.trimmed).2⟩
  · rw [hjoined]
    intro hempty
    exact absurd (List.append_eq_nil_iff.1 hempty).1 hfirst

/-- The last line of framed lines is not empty. -/
theorem Framed.getLast?_ne {pieces : List (List Char)} (hframed : Framed pieces) :
    pieces.getLast? ≠ some [] := by
  intro hempty
  obtain ⟨front, rfl⟩ := List.getLast?_eq_some_iff.1 hempty
  by_cases hfront : front = []
  · rw [hfront] at hframed
    exact absurd (hframed.nil_of_joined rfl) (by simp)
  · have hjoined : joinLines (front ++ [[]]) = joinLines front ++ ['\n'] :=
      intercalate_append hfront (List.cons_ne_nil [] [])
    have hlast := (trim_eq_self_iff.1 hframed.trimmed).2
    rw [hjoined, List.getLast?_concat] at hlast
    exact absurd hlast (by decide)

/-- Every line loses its star and keeps the rest. -/
theorem dropMarks_starred {pieces : List (List Char)} (hplain : ∀ line ∈ pieces, Plain line) :
    dropMarks 0 false ('\n' :: (pieces.flatMap starred ++ " */".toList)) =
      pieces.flatMap ('\n' :: ·) := by
  induction pieces with
  | nil => decide
  | cons line pieces ih =>
      obtain ⟨hline, hpieces⟩ := List.forall_mem_cons.1 hplain
      let later : List Char := '\n' :: (pieces.flatMap starred ++ " */".toList)
      have hwritten : (line :: pieces).flatMap starred ++ " */".toList =
          [' '] ++ '*' :: [' '] ++ (line ++ later) := by
        simp [starred, later]
      have hcloses :
          closingLength? ('\n' :: ([' '] ++ '*' :: [' '] ++ (line ++ later))) = none := rfl
      have hstar : dropMarks 0 true ([' '] ++ '*' :: [' '] ++ (line ++ later)) =
          dropMarks 0 false (line ++ later) :=
        dropMarks_star rfl rfl rfl (by simp)
      rw [hwritten, dropMarks_lineEnd hcloses, hstar,
        dropMarks_append hline.one_line hline.back hline.not_closed (by simp [later]), ih hpieces,
        List.flatMap_cons]
      rfl

theorem flatMap_lineEnd (line : List Char) (pieces : List (List Char)) :
    (line :: pieces).flatMap ('\n' :: ·) = '\n' :: joinLines (line :: pieces) := by
  induction pieces generalizing line with
  | nil => simp [joinLines]
  | cons next pieces ih =>
      rw [List.flatMap_cons, ih, joinLines, joinLines, List.intercalate_cons_cons,
        List.append_assoc]
      rfl

theorem trim_flatMap_lineEnd (pieces : List (List Char)) :
    trim (pieces.flatMap ('\n' :: ·)) = trim (joinLines pieces) := by
  cases pieces with
  | nil => rfl
  | cons line pieces => rw [flatMap_lineEnd, trim_cons_of_isBlank (by decide)]

/-- The lines between the marks are read back. -/
theorem lines_content_around {pieces : List (List Char)} (hplain : ∀ line ∈ pieces, Plain line)
    (hframed : Framed pieces) : lines (content (around pieces)) = pieces := by
  have hcontent : content (around pieces) = joinLines pieces := by
    have hopening : dropMarks 0 true (around pieces) =
        dropMarks 0 false ('\n' :: (pieces.flatMap starred ++ " */".toList)) :=
      @dropMarks_opening [] _ rfl rfl
    rw [content, hopening, dropMarks_starred hplain, trim_flatMap_lineEnd, hframed.trimmed]
  rw [hcontent]
  refine lines_intercalate (fun line hmem => (hplain line hmem).one_line) (fun line hmem hend => ?_)
    hframed.getLast?_ne
  have hback := (hplain line hmem).back
  rw [hend] at hback
  exact absurd hback (by decide)

/-! ## Texts -/

variable {text front : List Char}

/-- A text whose lines a comment keeps as they are. -/
structure Clean (text : List Char) : Prop where
  trimmed : trim text = text
  no_return : '\r' ∉ text
  not_closed : ¬ "*/".toList <:+: text
  back : ∀ line ∈ lines text, line.getLast?.any isBlank = false

/-- A text without tags. -/
structure PlainText (text : List Char) : Prop extends Clean text where
  no_tag : ∀ line ∈ lines text, startsTag line = false

instance (text : List Char) : Decidable (Clean text) :=
  decidable_of_iff (trim text = text ∧ '\r' ∉ text ∧ ¬ "*/".toList <:+: text ∧
      ∀ line ∈ lines text, line.getLast?.any isBlank = false)
    ⟨fun ⟨h₁, h₂, h₃, h₄⟩ => ⟨h₁, h₂, h₃, h₄⟩, fun ⟨h₁, h₂, h₃, h₄⟩ => ⟨h₁, h₂, h₃, h₄⟩⟩

instance (text : List Char) : Decidable (PlainText text) :=
  decidable_of_iff (Clean text ∧ ∀ line ∈ lines text, startsTag line = false)
    ⟨fun ⟨h₁, h₂⟩ => ⟨h₁, h₂⟩, fun ⟨h₁, h₂⟩ => ⟨h₁, h₂⟩⟩

namespace Clean

theorem getLast?_ne_lineEnd (htext : Clean text) : text.getLast? ≠ some '\n' := by
  intro hend
  have hback := (trim_eq_self_iff.1 htext.trimmed).2
  rw [hend] at hback
  exact absurd hback (by decide)

theorem lines_eq (htext : Clean text) (hsome : text ≠ []) : lines text = splitOn '\n' text :=
  lines_eq_splitOn hsome htext.no_return htext.getLast?_ne_lineEnd

theorem joinLines_lines (htext : Clean text) : joinLines (lines text) = text := by
  by_cases hnil : text = []
  · rw [hnil]
    rfl
  · rw [htext.lines_eq hnil]
    exact intercalate_splitOn '\n' text

theorem exists_lines (htext : Clean text) (hsome : text ≠ []) :
    ∃ first more, lines text = first :: more ∧ first ≠ [] := by
  obtain ⟨first, more, hlines⟩ := List.exists_cons_of_ne_nil (splitOn_ne_nil '\n' text)
  rw [← htext.lines_eq hsome] at hlines
  refine ⟨first, more, hlines, ?_⟩
  rintro rfl
  have hjoined := htext.joinLines_lines
  rw [hlines] at hjoined
  cases more with
  | nil => exact hsome hjoined.symm
  | cons next more =>
      have hfront := (trim_eq_self_iff.1 htext.trimmed).1
      have hblank : isBlank '\n' = true := by decide
      rw [← hjoined, joinLines, List.intercalate_cons_cons] at hfront
      exact absurd hfront (by simp [hblank])

theorem plain_of_mem_lines (htext : Clean text) {line : List Char} (hmem : line ∈ lines text) :
    Plain line := by
  have hback := htext.back line hmem
  have hsome : text ≠ [] := by
    rintro rfl
    exact absurd hmem List.not_mem_nil
  rw [htext.lines_eq hsome] at hmem
  exact ⟨not_mem_of_mem_splitOn hmem, hback,
    fun hsuffix => htext.not_closed (hsuffix.isInfix.trans (infix_of_mem_splitOn hmem))⟩

theorem framed (htext : Clean text) : Framed (lines text) where
  trimmed := by rw [htext.joinLines_lines, htext.trimmed]
  nil_of_joined := by
    rw [htext.joinLines_lines]
    rintro rfl
    rfl

end Clean

/-! ## Tags -/

/-- A part of a tag, behind a space if there is one. -/
def field (part : String) : List Char :=
  if part = "" then [] else ' ' :: part.toList

/-- A tag with its type, its name and its description behind its keyword. -/
def tagText (tag : DocTag) : List Char :=
  (keyword tag.kind).toList ++ field tag.type ++ field tag.name ++ field tag.description

/-- A word that a comment keeps as it is. -/
structure IsWord (word : String) : Prop where
  ne_empty : word ≠ ""
  no_blank : word.toList.all isWordChar = true
  not_closed : ¬ "*/".toList <:+: word.toList

instance (word : String) : Decidable (IsWord word) :=
  decidable_of_iff (word ≠ "" ∧ word.toList.all isWordChar = true ∧ ¬ "*/".toList <:+: word.toList)
    ⟨fun ⟨h₁, h₂, h₃⟩ => ⟨h₁, h₂, h₃⟩, fun ⟨h₁, h₂, h₃⟩ => ⟨h₁, h₂, h₃⟩⟩

/-- A tag that can be written: no method, with a type, with a variable for a name unless its kind
has none or needs none, and with a description that an absent name is not mistaken for. -/
structure Writable (tag : DocTag) : Prop where
  kind : tag.kind ≠ .method
  plain : tag.isStatic = false ∧ tag.parameters = []
  type : IsWord tag.type
  unnamed : tag.name = "" → tag.kind = .variableType ∨ tag.kind = .returned
  named : tag.name ≠ "" → tag.kind ≠ .returned ∧ isVariable tag.name.toList = true ∧
    IsWord tag.name
  description : PlainText tag.description.toList
  not_named : tag.kind = .variableType → tag.name = "" → tag.description.toList.head? ≠ some '$'

instance (tag : DocTag) : Decidable (Writable tag) :=
  decidable_of_iff (tag.kind ≠ .method ∧ (tag.isStatic = false ∧ tag.parameters = []) ∧
      IsWord tag.type ∧ (tag.name = "" → tag.kind = .variableType ∨ tag.kind = .returned) ∧
      (tag.name ≠ "" → tag.kind ≠ .returned ∧ isVariable tag.name.toList = true ∧
        IsWord tag.name) ∧ PlainText tag.description.toList ∧
      (tag.kind = .variableType → tag.name = "" → tag.description.toList.head? ≠ some '$'))
    ⟨fun ⟨h₁, h₂, h₃, h₄, h₅, h₆, h₇⟩ => ⟨h₁, h₂, h₃, h₄, h₅, h₆, h₇⟩,
      fun ⟨h₁, h₂, h₃, h₄, h₅, h₆, h₇⟩ => ⟨h₁, h₂, h₃, h₄, h₅, h₆, h₇⟩⟩

/-! ## The line a tag begins with -/

/-- A piece of a line that starts a tag. -/
structure Start (front : List Char) : Prop where
  at_sign : front.head? = some '@'
  back : front.getLast?.any isBlank = false
  one_line : '\n' ∉ front
  no_return : '\r' ∉ front
  not_closed : ¬ "*/".toList <:+: front

theorem field_of_ne {part : String} (hsome : part ≠ "") : field part = ' ' :: part.toList :=
  if_neg hsome

theorem Breaks.field {rest : List Char} (hrest : Breaks rest) (part : String) :
    Breaks (field part ++ rest) := by
  rw [DocComment.field]
  split
  · exact hrest
  · rfl

theorem getLast?_append_field {part : String} (hfront : front.getLast?.any isBlank = false)
    (hpart : part.toList.getLast?.any isBlank = false) :
    (front ++ field part).getLast?.any isBlank = false := by
  by_cases hempty : part = ""
  · rwa [field, if_pos hempty, List.append_nil]
  · have hsome : part.toList ≠ [] := mt String.toList_eq_nil_iff.1 hempty
    rwa [field_of_ne hempty, List.append_cons, List.getLast?_append_of_ne_nil _ hsome]

theorem not_closed_append_field {part : String} (hfront : ¬ "*/".toList <:+: front)
    (hpart : ¬ "*/".toList <:+: part.toList) : ¬ "*/".toList <:+: front ++ field part := by
  by_cases hempty : part = ""
  · rwa [field, if_pos hempty, List.append_nil]
  · rw [field_of_ne hempty, infix_append_cons_iff (by decide), not_or]
    exact ⟨hfront, hpart⟩

theorem not_mem_field {part : String} {c : Char} (hc : c ≠ ' ') (hnot : c ∉ part.toList) :
    c ∉ field part := by
  rw [field]
  split
  · exact List.not_mem_nil
  · exact List.not_mem_cons_of_ne_of_not_mem hc hnot

theorem IsWord.not_mem {word : String} (hword : IsWord word) {c : Char}
    (hblank : isBlank c = true) : c ∉ word.toList := by
  intro hmem
  rw [isBlank_eq_false_of_mem_word hword.no_blank hmem] at hblank
  cases hblank

theorem IsWord.trim_eq {word : String} (hword : IsWord word) : trim word.toList = word.toList := by
  have hblank : ∀ {o : Option Char}, (∀ c ∈ o, c ∈ word.toList) → o.any isBlank = false := by
    rintro (_ | c) hmem
    · rfl
    · exact isBlank_eq_false_of_mem_word hword.no_blank (hmem c rfl)
  rw [trim_eq_self_iff]
  exact ⟨hblank fun _ => List.mem_of_head?, hblank fun _ => List.mem_of_getLast?⟩

theorem start_keyword (kind : TagKind) : Start (keyword kind).toList := by
  cases kind <;> constructor <;> decide

namespace Start

theorem ne_nil (hstart : Start front) : front ≠ [] := by
  rintro rfl
  exact absurd hstart.at_sign (by simp)

theorem append_word (hstart : Start front) {word : String} (hword : word ≠ "" → IsWord word) :
    Start (front ++ field word) := by
  by_cases hempty : word = ""
  · rwa [field, if_pos hempty, List.append_nil]
  · obtain hword := hword hempty
    refine ⟨?_, ?_, ?_, ?_, not_closed_append_field hstart.not_closed hword.not_closed⟩
    · rw [List.head?_append_of_ne_nil _ hstart.ne_nil, hstart.at_sign]
    · exact getLast?_append_field hstart.back (trim_eq_self_iff.1 hword.trim_eq).2
    · rw [List.mem_append, not_or]
      exact ⟨hstart.one_line, not_mem_field (by decide) (hword.not_mem (by decide))⟩
    · rw [List.mem_append, not_or]
      exact ⟨hstart.no_return, not_mem_field (by decide) (hword.not_mem (by decide))⟩

/-- A description goes on where the line starts a tag, and its later lines stay as they are. -/
theorem lines_append_field (hstart : Start front) {description : String}
    (hclean : Clean description.toList) :
    ∃ first, lines (front ++ field description) = first :: (lines description.toList).tail ∧
      first.head? = some '@' ∧ first.getLast?.any isBlank = false := by
  by_cases hempty : description = ""
  · refine ⟨front, ?_, hstart.at_sign, hstart.back⟩
    rw [field, if_pos hempty, List.append_nil, hempty,
      lines_of_one_line hstart.one_line hstart.ne_nil]
    rfl
  · have hsome : description.toList ≠ [] := mt String.toList_eq_nil_iff.1 hempty
    obtain ⟨first, more, hlines, hfirst⟩ := hclean.exists_lines hsome
    have hback : first.getLast?.any isBlank = false :=
      hclean.back first (by rw [hlines]; exact List.mem_cons_self)
    have hmargin : '\n' ∉ front ++ [' '] := by
      rw [List.mem_append, not_or]
      exact ⟨hstart.one_line, by decide⟩
    have hreturn : '\r' ∉ front ++ field description := by
      rw [List.mem_append, not_or]
      exact ⟨hstart.no_return, not_mem_field (by decide) hclean.no_return⟩
    have hend : (front ++ field description).getLast? ≠ some '\n' := by
      rw [field_of_ne hempty, List.append_cons, List.getLast?_append_of_ne_nil _ hsome]
      exact hclean.getLast?_ne_lineEnd
    refine ⟨front ++ [' '] ++ first, ?_, ?_, ?_⟩
    · rw [lines_eq_splitOn (List.append_ne_nil_of_left_ne_nil hstart.ne_nil _) hreturn hend,
        field_of_ne hempty, List.append_cons, splitOn_append_of_not_mem hmargin,
        ← hclean.lines_eq hsome, hlines]
      rfl
    · rw [List.append_assoc, List.head?_append_of_ne_nil _ hstart.ne_nil, hstart.at_sign]
    · rwa [List.getLast?_append_of_ne_nil _ hfirst]

theorem clean_append_field (hstart : Start front) {description : String}
    (hclean : Clean description.toList) : Clean (front ++ field description) := by
  refine ⟨?_, ?_, not_closed_append_field hstart.not_closed hclean.not_closed, ?_⟩
  · rw [trim_eq_self_iff, List.head?_append_of_ne_nil _ hstart.ne_nil, hstart.at_sign]
    exact ⟨by decide, getLast?_append_field hstart.back (trim_eq_self_iff.1 hclean.trimmed).2⟩
  · rw [List.mem_append, not_or]
    exact ⟨hstart.no_return, not_mem_field (by decide) hclean.no_return⟩
  · obtain ⟨first, hlines, -, hfirst⟩ := hstart.lines_append_field hclean
    rw [hlines, List.forall_mem_cons]
    exact ⟨hfirst, fun line hmem => hclean.back line (List.mem_of_mem_tail hmem)⟩

end Start

/-! ## The words of a tag -/

variable {word type name description : String}

theorem breaks_field (part : String) : Breaks (field part) := by
  have hbreaks := Breaks.field (show Breaks [] from rfl) part
  rwa [List.append_nil] at hbreaks

theorem nextWord_field (hword : IsWord word) {rest : List Char} (hrest : Breaks rest) :
    nextWord (field word ++ rest) = (word.toList, rest) := by
  rw [field_of_ne hword.ne_empty]
  exact @nextWord_append [' '] word.toList rest rfl hword.no_blank
    (mt String.toList_eq_nil_iff.1 hword.ne_empty) hrest

theorem exists_of_isVariable {marked : List Char} (hvariable : isVariable marked = true) :
    ∃ c rest, marked = '$' :: c :: rest := by
  unfold isVariable at hvariable
  split at hvariable
  · exact ⟨_, _, rfl⟩
  · cases hvariable

theorem markedVariable?_eq_some {marked : List Char} (hvariable : isVariable marked = true) :
    markedVariable? marked = some marked := by
  obtain ⟨c, rest, rfl⟩ := exists_of_isVariable hvariable
  rfl

section Reading

variable (htype : IsWord type) (hdescription : trim description.toList = description.toList)

include hdescription in
theorem described_field (kind : TagKind) (name : List Char) :
    described kind type.toList name (field description) =
      ⟨kind, type, String.ofList name, description, false, []⟩ := by
  have htrim : trim (field description) = description.toList := by
    by_cases hempty : description = ""
    · rw [hempty]
      rfl
    · rw [field_of_ne hempty, trim_cons_of_isBlank (by decide), hdescription]
  simp only [described, htrim, String.ofList_toList]

include htype hdescription

/-- A tag with a variable is read with its type, its name and its description. -/
theorem variableTag?_field (kind : TagKind) (hname : IsWord name)
    (hvariable : isVariable name.toList = true) :
    variableTag? kind (field type ++ (field name ++ field description)) =
      some ⟨kind, type, name, description, false, []⟩ := by
  have hrest : Breaks (field name ++ field description) := (breaks_field description).field name
  simp only [variableTag?, nextWord_field htype hrest,
    nextWord_field hname (breaks_field description), markedVariable?_eq_some hvariable,
    Option.map_some, described_field hdescription, String.ofList_toList]

theorem returnTag?_field : returnTag? (field type ++ field description) =
    some ⟨.returned, type, "", description, false, []⟩ := by
  have hsome : type.toList.isEmpty = false := by simpa using htype.ne_empty
  simp only [returnTag?, nextWord_field htype (breaks_field description), hsome,
    described_field hdescription]
  rfl

theorem typeTag?_field_of_name (hname : IsWord name) (hvariable : isVariable name.toList = true) :
    typeTag? (field type ++ (field name ++ field description)) =
      some ⟨.variableType, type, name, description, false, []⟩ := by
  have hrest : Breaks (field name ++ field description) := (breaks_field description).field name
  have hsome : type.toList.isEmpty = false := by simpa using htype.ne_empty
  simp only [typeTag?, nextWord_field htype hrest, nextWord_field hname (breaks_field description),
    hsome, hvariable, described_field hdescription, String.ofList_toList]
  rfl

/-- A description that does not begin with a dollar sign is not taken for a name. -/
theorem typeTag?_field (hdollar : description.toList.head? ≠ some '$') :
    typeTag? (field type ++ field description) =
      some ⟨.variableType, type, "", description, false, []⟩ := by
  have hsome : type.toList.isEmpty = false := by simpa using htype.ne_empty
  have hvariable : isVariable (nextWord (field description)).1 = false := by
    have hspaces : (field description).dropWhile isBlank = description.toList := by
      have hfront := (trim_eq_self_iff.1 hdescription).1
      by_cases hempty : description = ""
      · rw [hempty]
        rfl
      · rw [field_of_ne hempty, List.dropWhile_cons_of_pos (by decide),
          dropWhile_isBlank_eq_self hfront]
    rw [Bool.eq_false_iff]
    intro hvariable
    obtain ⟨c, rest, hword⟩ := exists_of_isVariable hvariable
    have hinitial : '$' :: c :: rest <+: description.toList := by
      rw [← hword, nextWord, hspaces]
      exact List.takeWhile_prefix isWordChar
    obtain ⟨more, hmore⟩ := hinitial
    exact hdollar (by rw [← hmore]; rfl)
  simp only [typeTag?, nextWord_field htype (breaks_field description), hsome, hvariable,
    described_field hdescription]
  rfl

end Reading

namespace Writable

variable {tag : DocTag}

theorem start (htag : Writable tag) :
    Start ((keyword tag.kind).toList ++ field tag.type ++ field tag.name) :=
  ((start_keyword tag.kind).append_word fun _ => htag.type).append_word
    fun hname => (htag.named hname).2.2

theorem clean (htag : Writable tag) : Clean (tagText tag) :=
  htag.start.clean_append_field htag.description.toClean

/-- The first line starts the tag, and the other lines are those of the description. -/
theorem lines_tagText (htag : Writable tag) :
    ∃ first, lines (tagText tag) = first :: (lines tag.description.toList).tail ∧
      startsTag first = true ∧ trim first = first := by
  obtain ⟨first, hlines, hfirst, hback⟩ := htag.start.lines_append_field htag.description.toClean
  refine ⟨first, hlines, ?_, ?_⟩
  · obtain ⟨rest, rfl⟩ := List.head?_eq_some_iff.1 hfirst
    exact @startsTag_append [] rfl rest
  · rw [trim_eq_self_iff, hfirst]
    exact ⟨by decide, hback⟩

/-- The lines of a tag make one chunk, whatever tags follow. -/
theorem chunks_lines_append (htag : Writable tag) {later : List (List Char)}
    (hlater : textLines later = []) :
    chunks (lines (tagText tag) ++ later) = tagText tag :: chunks later := by
  obtain ⟨first, hlines, hstarts, htrim⟩ := htag.lines_tagText
  have hmore : ∀ line ∈ (lines tag.description.toList).tail, startsTag line = false :=
    fun line hmem => htag.description.no_tag line (List.mem_of_mem_tail hmem)
  have hjoined : joinLines (first :: (lines tag.description.toList).tail) = tagText tag := by
    rw [← hlines, htag.clean.joinLines_lines]
  rw [hlines, List.cons_append, chunks_cons_of_startsTag hstarts, htrim,
    textLines_append_of_text hmore, hlater, List.append_nil, hjoined, chunks_append_of_text hmore]

theorem textLines_lines_append (htag : Writable tag) (later : List (List Char)) :
    textLines (lines (tagText tag) ++ later) = [] := by
  obtain ⟨first, hlines, hstarts, -⟩ := htag.lines_tagText
  rw [hlines, List.cons_append, textLines_cons_of_startsTag hstarts]

/-- The words of a tag are read back. -/
theorem tag?_tagText (htag : Writable tag) : tag? (tagText tag) = some tag := by
  obtain ⟨kind, type, name, description, isStatic, parameters⟩ := tag
  obtain ⟨rfl, rfl⟩ : isStatic = false ∧ parameters = [] := htag.plain
  have htype : IsWord type := htag.type
  have hdescription : trim description.toList = description.toList := htag.description.trimmed
  have hrest : Breaks (field type ++ (field name ++ field description)) :=
    ((breaks_field description).field name).field type
  have hunnamed : name = "" → kind = .variableType ∨ kind = .returned := htag.unnamed
  rw [tagText, List.append_assoc, List.append_assoc, tag?_keyword kind hrest]
  by_cases hname : name = ""
  · rw [hname, show field "" = [] from rfl, List.nil_append]
    rcases hunnamed hname with rfl | rfl
    · exact typeTag?_field htype hdescription (htag.not_named rfl hname)
    · exact returnTag?_field htype hdescription
  · obtain ⟨hkind, hvariable, hword⟩ := htag.named hname
    cases kind with
    | returned => exact absurd rfl hkind
    | method => exact absurd rfl htag.kind
    | variableType => exact typeTag?_field_of_name htype hdescription hword hvariable
    | parameter | property | propertyRead | propertyWrite =>
        exact variableTag?_field htype hdescription _ hword hvariable

end Writable

/-! ## Reading what is written -/

/-- A comment with a text and tags. -/
def write (summary : String) (tags : List DocTag) : String :=
  String.ofList (around (lines summary.toList ++ tags.flatMap fun tag => lines (tagText tag)))

section Write

variable {summary : String} {tags : List DocTag}

theorem framed_flatMap_lines (htags : ∀ tag ∈ tags, Writable tag) :
    Framed (tags.flatMap fun tag => lines (tagText tag)) := by
  induction tags with
  | nil => exact ⟨rfl, fun _ => rfl⟩
  | cons tag tags ih =>
      obtain ⟨htag, htags⟩ := List.forall_mem_cons.1 htags
      exact htag.clean.framed.append (ih htags)

theorem textLines_flatMap_lines (htags : ∀ tag ∈ tags, Writable tag) :
    textLines (tags.flatMap fun tag => lines (tagText tag)) = [] := by
  cases tags with
  | nil => rfl
  | cons tag tags => exact (htags tag List.mem_cons_self).textLines_lines_append _

theorem chunks_flatMap_lines (htags : ∀ tag ∈ tags, Writable tag) :
    chunks (tags.flatMap fun tag => lines (tagText tag)) = tags.map tagText := by
  induction tags with
  | nil => rfl
  | cons tag tags ih =>
      obtain ⟨htag, htags⟩ := List.forall_mem_cons.1 htags
      rw [List.flatMap_cons, htag.chunks_lines_append (textLines_flatMap_lines htags), ih htags,
        List.map_cons]


theorem filterMap_tag?_map (htags : ∀ tag ∈ tags, Writable tag) :
    (tags.map tagText).filterMap tag? = tags := by
  induction tags with
  | nil => rfl
  | cons tag tags ih =>
      obtain ⟨htag, htags⟩ := List.forall_mem_cons.1 htags
      rw [List.map_cons, List.filterMap_cons_some htag.tag?_tagText, ih htags]

/-- A comment gives back the text and the tags it is written from. -/
theorem parse_write (hsummary : PlainText summary.toList) (htags : ∀ tag ∈ tags, Writable tag) :
    (parse (write summary tags)).text = summary ∧ (parse (write summary tags)).tags = tags := by
  let tagLines : List (List Char) := tags.flatMap fun tag => lines (tagText tag)
  have hplain : ∀ line ∈ lines summary.toList ++ tagLines, Plain line := by
    rw [List.forall_mem_append]
    refine ⟨fun line => hsummary.plain_of_mem_lines, fun line hmem => ?_⟩
    obtain ⟨tag, htag, hline⟩ := List.mem_flatMap.1 hmem
    exact (htags tag htag).clean.plain_of_mem_lines hline
  have hlines : lines (content (write summary tags).toList) = lines summary.toList ++ tagLines := by
    rw [write, String.toList_ofList]
    exact lines_content_around hplain (hsummary.framed.append (framed_flatMap_lines htags))
  have htext : textLines (lines summary.toList ++ tagLines) = lines summary.toList := by
    rw [textLines_append_of_text hsummary.no_tag, textLines_flatMap_lines htags, List.append_nil]
  have hchunks : chunks (lines summary.toList ++ tagLines) = tags.map tagText := by
    rw [chunks_append_of_text hsummary.no_tag, chunks_flatMap_lines htags]
  constructor
  · simp only [parse, hlines, htext]
    rw [hsummary.joinLines_lines, hsummary.trimmed, String.ofList_toList]
  · simp only [parse, hlines, hchunks]
    exact filterMap_tag?_map htags

end Write

example : write "Sums." [⟨.parameter, "int", "$a", "first\n  operand", false, []⟩] =
    "/**\n * Sums.\n * @param int $a first\n *   operand\n */" := by
  decide

/-- A text and descriptions over several lines, with stars, at-signs and dollar signs. -/
theorem parse_write_marks :
    let summary := "Sends * to a@b.\n\n  * costs $5"
    let tags : List DocTag := [
      ⟨.parameter, "int|null", "$by", "how far:\n  * $1 or\n\na@x", false, []⟩,
      ⟨.variableType, "T", "", "a $x", false, []⟩, ⟨.returned, "$this", "", "", false, []⟩]
    PlainText summary.toList ∧ (∀ tag ∈ tags, Writable tag) ∧
      (parse (write summary tags)).text = summary ∧ (parse (write summary tags)).tags = tags := by
  intro summary tags
  have hsummary : PlainText summary.toList := by decide
  have htags : ∀ tag ∈ tags, Writable tag := by decide
  exact ⟨hsummary, htags, parse_write hsummary htags⟩

end SymbolIndex.DocComment
