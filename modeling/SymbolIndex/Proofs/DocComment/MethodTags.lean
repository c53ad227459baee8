import SymbolIndex.Proofs.DocComment.Chunks

/-!
# Names of methods in tags

A method tag gives a type and a name, and the parameters in parentheses behind
the name.  The name that is read goes up to the last opening parenthesis of the
first word, so parentheses in the parameters become part of it unless a blank
comes before them.
-/

namespace SymbolIndex.DocComment

open SymbolIndex.Text

variable {type name held tail : List Char} {isStatic : Bool}

/-! ## The tag and the name that is read -/

/-- A method tag: perhaps `static`, a type, a name, and what the parentheses hold. -/
def methodText (isStatic : Bool) (type name held : List Char) : List Char :=
  (keyword .method).toList ++ ' ' :: ((if isStatic then "static ".toList else []) ++
    (type ++ ' ' :: (name ++ '(' :: held))) ++ [')']

theorem lineEnd_not_mem_methodText (htype : type.all isWordChar = true)
    (hname : name.all isWordChar = true) (hheld : '\n' ∉ held) :
    '\n' ∉ methodText isStatic type name held := by
  have hword : ∀ {word : List Char}, word.all isWordChar = true → '\n' ∉ word :=
    fun hall hmem => absurd (isBlank_eq_false_of_mem_word hall hmem) (by decide)
  have hkeyword : '\n' ∉ (keyword .method).toList := by decide
  have hstatic : '\n' ∉ (if isStatic then "static ".toList else []) := by
    cases isStatic <;> decide
  simp only [methodText, List.mem_append, List.mem_cons, not_or]
  exact ⟨⟨hkeyword, by decide, hstatic, hword htype, by decide, hword hname, by decide, hheld⟩,
    by decide, List.not_mem_nil⟩

theorem not_closed_methodText : ¬ ['*', '/'] <:+ methodText isStatic type name held := by
  rintro ⟨before, hbefore⟩
  have hlast := congrArg List.getLast? hbefore
  rw [methodText, List.getLast?_concat, List.getLast?_append_of_ne_nil _ (by simp)] at hlast
  exact absurd hlast (by decide)

/-- What stands before the last opening parenthesis. -/
def beforeLastOpening (chars : List Char) : List Char :=
  (chars.rdropWhile (· != '(')).dropLast

/-- What the first word holds besides the name, up to its last opening parenthesis. -/
def nameExcess (held : List Char) : List Char :=
  beforeLastOpening ('(' :: held.takeWhile isWordChar)

theorem beforeLastOpening_append {front back : List Char} (hback : '(' ∉ back) :
    beforeLastOpening (front ++ '(' :: back) = front := by
  have hstops : ∀ c ∈ back.reverse, (c != '(') = true := by
    intro c hmem
    rw [bne_iff_ne]
    rintro rfl
    exact hback (List.mem_reverse.1 hmem)
  have hdrop : (front ++ '(' :: back).rdropWhile (· != '(') = front ++ ['('] := by
    rw [List.append_cons, List.rdropWhile, List.reverse_append, List.dropWhile_append_of_pos hstops,
      List.reverse_append, List.reverse_singleton, List.singleton_append,
      List.dropWhile_cons_of_neg (by decide), List.reverse_cons, List.reverse_reverse]
  rw [beforeLastOpening, hdrop, List.dropLast_concat]

theorem exists_last_opening {chars : List Char} (hmem : '(' ∈ chars) :
    ∃ front back, chars = front ++ '(' :: back ∧ '(' ∉ back := by
  obtain ⟨back, front, hreverse, hback⟩ := List.eq_append_cons_of_mem (List.mem_reverse.2 hmem)
  refine ⟨front.reverse, back.reverse, ?_, fun h => hback (List.mem_reverse.1 h)⟩
  rw [← List.reverse_inj, hreverse]
  simp

/-- The name is read as it is written exactly if no parenthesis opens up to the first blank of what
the parentheses hold. -/
theorem nameExcess_eq_nil_iff : nameExcess held = [] ↔ '(' ∉ held.takeWhile isWordChar := by
  constructor
  · intro hnil hmem
    obtain ⟨front, back, hword, hback⟩ := exists_last_opening hmem
    have hexcess : nameExcess held = '(' :: front := by
      rw [nameExcess, hword]
      exact @beforeLastOpening_append ('(' :: front) back hback
    rw [hexcess] at hnil
    cases hnil
  · exact @beforeLastOpening_append [] (held.takeWhile isWordChar)

/-! ## Signatures -/

/-- A word without an opening parenthesis begins no signature. -/
theorem signatureFrom?_eq_none {before inner rest : List Char} (hopen : '(' ∉ inner)
    (hrest : Breaks rest) : signatureFrom? before (inner ++ rest) = none := by
  induction inner generalizing before with
  | nil =>
      cases rest with
      | nil => rfl
      | cons c rest =>
          have hblank : isBlank c = true := hrest
          rw [List.nil_append, signatureFrom?, if_pos hblank]
  | cons c inner ih =>
      obtain ⟨hc, hinner⟩ := not_or.1 (fun h => hopen (List.mem_cons.2 h))
      have hnot : ¬ (c = '(' ∧ before ≠ []) := fun h => hc h.1.symm
      rw [List.cons_append, signatureFrom?, ih hinner, if_neg hnot]
      split <;> rfl

/-- A signature is cut at the last opening parenthesis of the first word. -/
theorem signatureFrom?_eq_some {before front inner rest : List Char} {cut : List Char × List Char}
    (hfront : front.all isWordChar = true) (hsome : before.reverse ++ front ≠ [])
    (hopen : '(' ∉ inner) (hrest : Breaks rest)
    (hclose : closeParenthesis? (inner ++ rest) = some cut) :
    signatureFrom? before (front ++ '(' :: (inner ++ rest)) =
      some ⟨before.reverse ++ front, cut.1, cut.2⟩ := by
  induction front generalizing before with
  | nil =>
      have hbefore : before ≠ [] := by simpa using hsome
      have hcut : '(' = '(' ∧ before ≠ [] := ⟨rfl, hbefore⟩
      have hparen : ¬ isBlank '(' = true := by decide
      rw [List.nil_append, signatureFrom?, if_neg hparen, signatureFrom?_eq_none hopen hrest,
        if_pos hcut, hclose, List.append_nil]
      rfl
  | cons c front ih =>
      rw [List.all_cons, Bool.and_eq_true] at hfront
      have hblank : isBlank c = false := by simpa [isWordChar] using hfront.1
      have hreverse : (c :: before).reverse ++ front = before.reverse ++ c :: front := by simp
      rw [List.cons_append, signatureFrom?, ih hfront.2 (by simp), hblank, hreverse]
      rfl

theorem exists_closeParenthesis? {chars : List Char} (hmem : ')' ∈ chars) :
    ∃ cut, closeParenthesis? chars = some cut := by
  rw [closeParenthesis?]
  split
  · rename_i hnil
    rw [List.dropWhile_eq_nil_iff] at hnil
    exact absurd (hnil ')' hmem) (by decide)
  · exact ⟨_, rfl⟩

/-- The name of a signature that is read. -/
theorem exists_signature? (hname : name.all isWordChar = true) (hsome : name ≠ [])
    (htail : Breaks tail) : ∃ signature,
      signature? (name ++ '(' :: (held ++ ')' :: tail)) = some signature ∧
        signature.name = name ++ nameExcess held := by
  let word := held.takeWhile isWordChar
  let later := held.dropWhile isWordChar
  have hheld : word ++ later = held := List.takeWhile_append_dropWhile
  obtain ⟨front, back, hword, hback⟩ :=
    exists_last_opening (show '(' ∈ '(' :: word from List.mem_cons_self)
  have hexcess : nameExcess held = front := by
    have hshape : '(' :: held.takeWhile isWordChar = front ++ '(' :: back := hword
    rw [nameExcess, hshape, beforeLastOpening_append hback]
  -- The first word ends with the parameters, or at their first blank.
  obtain ⟨inner, rest, hinner, hrest, hmem, hsplit⟩ : ∃ inner rest, '(' ∉ inner ∧ Breaks rest ∧
      ')' ∈ inner ++ rest ∧ back ++ (later ++ ')' :: tail) = inner ++ rest := by
    cases hlater : later with
    | nil =>
        refine ⟨back ++ [')'], tail, by simp [hback], htail, by simp, by simp⟩
    | cons c more =>
        have hblank : Breaks (c :: more) := hlater ▸ breaks_dropWhile held
        exact ⟨back, c :: more ++ ')' :: tail, hback, hblank, by simp, by simp⟩
  have hfront : (name ++ front).all isWordChar = true := by
    rw [List.all_append, hname, Bool.true_and, List.all_eq_true]
    intro c hmem
    have hc : c ∈ '(' :: word := by
      rw [hword]
      exact List.mem_append_left _ hmem
    rcases List.mem_cons.1 hc with rfl | hc
    · decide
    · exact List.all_eq_true.1 List.all_takeWhile c hc
  obtain ⟨cut, hclose⟩ := exists_closeParenthesis? hmem
  have hshape : name ++ '(' :: (held ++ ')' :: tail) = name ++ front ++ '(' :: (inner ++ rest) := by
    calc name ++ '(' :: (held ++ ')' :: tail)
        = name ++ ('(' :: word) ++ (later ++ ')' :: tail) := by simp [← hheld]
      _ = name ++ front ++ '(' :: (back ++ (later ++ ')' :: tail)) := by rw [hword]; simp
      _ = name ++ front ++ '(' :: (inner ++ rest) := by rw [hsplit]
  refine ⟨⟨name ++ front, cut.1, cut.2⟩, ?_, by rw [hexcess]⟩
  rw [hshape]
  exact @signatureFrom?_eq_some [] _ _ _ cut hfront (by simp [hsome]) hinner hrest hclose

/-! ## The words before a signature -/

section Words

variable (htype : type.all isWordChar = true) (htyped : type ≠ [])
  {chars : List Char} {signature : Signature} (hchars : chars.head?.any isBlank = false)
  (hsignature : signature? chars = some signature)

include htype htyped hchars hsignature

/-- The word before a signature is the type. -/
theorem methodSignature?_eq_some :
    methodSignature? (type ++ ' ' :: chars) = some (type, signature) := by
  have hall : ∀ c ∈ type, isWordChar c = true := List.all_eq_true.1 htype
  have hspace : ¬ isWordChar ' ' = true := by decide
  have htake : (type ++ ' ' :: chars).takeWhile isWordChar = type := by
    rw [List.takeWhile_append_of_pos hall, List.takeWhile_cons_of_neg hspace, List.append_nil]
  have hdrop : ((type ++ ' ' :: chars).dropWhile isWordChar).dropWhile isBlank = chars := by
    rw [List.dropWhile_append_of_pos hall, List.dropWhile_cons_of_neg hspace,
      List.dropWhile_cons_of_pos (by decide), dropWhile_isBlank_eq_self hchars]
  have hsome : type.isEmpty = false := by simpa using htyped
  simp only [methodSignature?, typedSignature?, htake, hdrop, hsome, hsignature]
  rfl

/-- The word `static` before the type makes the method static, and is never the type. -/
theorem methodTag?_eq_some (hword : isStatic = false → type ≠ "static".toList) :
    methodTag? (' ' :: ((if isStatic then "static ".toList else []) ++ (type ++ ' ' :: chars))) =
      some (methodTag isStatic type signature) := by
  have hread := methodSignature?_eq_some htype htyped hchars hsignature
  have hfront : (type ++ ' ' :: chars).dropWhile isBlank = type ++ ' ' :: chars :=
    dropWhile_isBlank_eq_self (head?_word htype htyped _)
  cases isStatic with
  | true =>
      have hnext : nextWord ("static ".toList ++ (type ++ ' ' :: chars)) =
          ("static".toList, ' ' :: (type ++ ' ' :: chars)) :=
        @nextWord_append [] "static".toList (' ' :: (type ++ ' ' :: chars)) rfl (by decide)
          (by decide) rfl
      have hstatic : afterStatic? ("static ".toList ++ (type ++ ' ' :: chars)) =
          some (type ++ ' ' :: chars) := by
        rw [afterStatic?, hnext]
        simp only [List.dropWhile_cons_of_pos (show isBlank ' ' = true from by decide), hfront]
        rfl
      have hblanks : (' ' :: ("static ".toList ++ (type ++ ' ' :: chars))).dropWhile isBlank =
          "static ".toList ++ (type ++ ' ' :: chars) := rfl
      simp only [if_true, methodTag?, hblanks, hstatic, Option.bind_some, hread]
      rfl
  | false =>
      have hnext : nextWord (type ++ ' ' :: chars) = (type, ' ' :: chars) :=
        @nextWord_append [] type (' ' :: chars) rfl htype htyped rfl
      have hstatic : afterStatic? (type ++ ' ' :: chars) = none := by
        rw [afterStatic?, hnext]
        exact if_neg fun h => hword rfl h.1
      have hblanks : (' ' :: ([] ++ (type ++ ' ' :: chars))).dropWhile isBlank =
          type ++ ' ' :: chars := by
        rw [List.dropWhile_cons_of_pos (by decide), List.nil_append, hfront]
      simp only [Bool.false_eq_true, if_false, methodTag?, hblanks, hstatic, hread]
      rfl

end Words

/-! ## Method tags in comments -/

section Comments

variable (htype : type.all isWordChar = true) (htyped : type ≠ [])
  (hword : isStatic = false → type ≠ "static".toList)
  (hname : name.all isWordChar = true) (hnamed : name ≠ [])

include htype htyped hword hname hnamed

/-- A method tag is read as one, under its name and what of the arguments is taken with it. -/
theorem exists_tag?_methodText (htail : Breaks tail) : ∃ signature,
    tag? (methodText isStatic type name held ++ tail) = some (methodTag isStatic type signature) ∧
      signature.name = name ++ nameExcess held := by
  obtain ⟨signature, hsignature, hread⟩ := @exists_signature? name held tail hname hnamed htail
  refine ⟨signature, ?_, hread⟩
  let rest := ' ' :: ((if isStatic then "static ".toList else []) ++
    (type ++ ' ' :: (name ++ '(' :: (held ++ ')' :: tail))))
  have hclose : ∀ keyword static : List Char,
      keyword ++ ' ' :: (static ++ (type ++ ' ' :: (name ++ '(' :: held))) ++ [')'] ++ tail =
        keyword ++ ' ' :: (static ++ (type ++ ' ' :: (name ++ '(' :: (held ++ ')' :: tail)))) := by
    simp
  have hshape : methodText isStatic type name held ++ tail = (keyword .method).toList ++ rest :=
    hclose _ _
  have hhead := head?_word hname hnamed ('(' :: (held ++ ')' :: tail))
  rw [hshape, tag?_keyword .method (show Breaks rest from rfl)]
  exact methodTag?_eq_some htype htyped hhead hsignature hword

/-- A method tag anywhere in a comment gives a method of its type.  The name that is read is the
one that is written exactly if no parenthesis opens up to the first blank of the parameters. -/
theorem exists_method_mem_tags (hheld : '\n' ∉ held) {place after : List Char}
    (hplace : TagPlace place) (hafter : Breaks after) :
    ∃ tag ∈ (parse (String.ofList (place ++ methodText isStatic type name held ++ after))).tags,
      tag.kind = .method ∧ tag.isStatic = isStatic ∧ tag.type = String.ofList type ∧
      tag.name = String.ofList (name ++ nameExcess held) ∧
      (tag.name = String.ofList name ↔ '(' ∉ held.takeWhile isWordChar) := by
  have hback : (methodText isStatic type name held).getLast?.any isBlank = false := by
    rw [methodText, List.getLast?_concat]
    decide
  obtain ⟨tail, htail, hmem⟩ : ∃ tail, Breaks tail ∧ methodText isStatic type name held ++ tail ∈
      chunks (lines (content (place ++ methodText isStatic type name held ++ after))) :=
    hplace.exists_chunk rfl (lineEnd_not_mem_methodText htype hname hheld) hback
      not_closed_methodText hafter
  obtain ⟨signature, hread, hsigned⟩ := exists_tag?_methodText htype htyped hword hname hnamed htail
  refine ⟨methodTag isStatic type signature, ?_, rfl, rfl, rfl, ?_, ?_⟩
  · rw [parse, String.toList_ofList]
    exact List.mem_filterMap.2 ⟨_, hmem, hread⟩
  · exact congrArg String.ofList hsigned
  · rw [← nameExcess_eq_nil_iff]
    have hnames : (methodTag isStatic type signature).name = String.ofList signature.name := rfl
    rw [hnames, String.ofList_inj, hsigned, List.append_right_eq_self]

end Comments

/-- A default with parentheses does not hurt where a blank comes before it. -/
theorem exists_method_mem_tags_spaced :
    let place := "/**\n * Made.".toList ++ '\n' :: ([' '] ++ '*' :: [' '])
    let held := "Id $id, $options = array()".toList
    let after := " Makes one.\n */".toList
    TagPlace place ∧ Breaks after ∧ '\n' ∉ held ∧ '(' ∉ held.takeWhile isWordChar ∧
      ∃ tag ∈ (parse (String.ofList (place ++ methodText true "Foo".toList "make".toList held ++
        after))).tags, tag.kind = .method ∧ tag.isStatic = true ∧ tag.type = "Foo" ∧
          tag.name = "make" := by
  intro place held after
  have hplace : TagPlace place := .starred "/**\n * Made.".toList rfl rfl
  have hheld : '\n' ∉ held := by decide
  have hword : '(' ∉ held.takeWhile isWordChar := by decide
  obtain ⟨tag, hmem, hkind, hstatic, htype, -, hname⟩ :=
    @exists_method_mem_tags "Foo".toList "make".toList held true (by decide) (by decide) (by decide)
      (by decide) (by decide) hheld place after hplace rfl
  refine ⟨hplace, rfl, hheld, hword, tag, hmem, hkind, hstatic, ?_, ?_⟩
  · rw [htype, String.ofList_toList]
  · rw [hname.2 hword, String.ofList_toList]

/-- Without a blank before it, a default with parentheses is read as part of the name. -/
theorem method_name_holds_default :
    let comment := "/** @method int f($a=array()) */"
    comment.toList = "/** ".toList ++
        methodText false "int".toList "f".toList "$a=array()".toList ++ " */".toList ∧
      (parse comment).tags.map (fun tag => (tag.kind, tag.type, tag.name)) =
        [(.method, "int", "f($a=array")] := by
  decide

end SymbolIndex.DocComment
