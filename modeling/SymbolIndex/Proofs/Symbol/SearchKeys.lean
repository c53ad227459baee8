import SymbolIndex.Proofs.SortedDistinct
import SymbolIndex.Proofs.Text.Casing
import SymbolIndex.Symbol.Name

/-!
# Search keys

The words of a name are found in one pass, which steps over the letter behind a mark without
asking whether a word starts behind that letter, too.  As long as no dollar sign stands inside of
the name, nothing is lost by this: the words are those that start between two neighbours.  So an
ASCII name is filed under its words, its short form and its full form, and under nothing else.
-/

namespace SymbolIndex.SearchKey

open SymbolIndex.Text

/-! ## Neighbours -/

/-- A mark stands between words. -/
def isMark (letter : Char × Char) : Bool :=
  letter.1 == '$' || letter.1 == '_'

/-- A word starts at `here`, which stands right behind `before`. -/
def startsWord (before here : Char × Char) : Bool :=
  isMark before && here.1 != '_' || !isCapital before && isCapital here

/-- The lower-case rests of a name from each letter where a word starts behind the one before. -/
def wordRests : List (Char × Char) → List (List Char)
  | before :: here :: rest =>
    (if startsWord before here then [(here :: rest).map (·.2)] else []) ++
      wordRests (here :: rest)
  | _ => []

/-- The rests are those from each place where a word starts. -/
theorem mem_wordRests_iff {letters : List (Char × Char)} {key : List Char} :
    key ∈ wordRests letters ↔ ∃ place before here, letters[place]? = some before ∧
      letters[place + 1]? = some here ∧ startsWord before here = true ∧
        key = (letters.drop (place + 1)).map (·.2) := by
  fun_induction wordRests letters with
  | case1 before here rest ih =>
      rw [List.mem_append, ih, List.mem_ite_nil_right, List.mem_singleton]
      constructor
      · rintro (⟨hstarts, rfl⟩ | ⟨place, left, right, hleft, hright, hstarts, rfl⟩)
        · exact ⟨0, before, here, rfl, rfl, hstarts, rfl⟩
        · exact ⟨place + 1, left, right, hleft, hright, hstarts, rfl⟩
      · rintro ⟨place, left, right, hleft, hright, hstarts, rfl⟩
        cases place with
        | zero =>
            cases hleft
            cases hright
            exact Or.inl ⟨hstarts, rfl⟩
        | succ place => exact Or.inr ⟨place, left, right, hleft, hright, hstarts, rfl⟩
  | case2 letters hshort =>
      constructor
      · intro hmem
        cases hmem
      · rintro ⟨place, left, right, hleft, hright, -⟩
        obtain ⟨hplace, -⟩ := List.getElem?_eq_some_iff.1 hright
        match letters, hplace with
        | before :: here :: rest, _ => exact absurd rfl (hshort before here rest)

/-! ## One pass -/

variable {previous : Option (Char × Char)} {letter next : Char × Char}
  {letters rest : List (Char × Char)}

/-- What the pass keeps from letter to letter: no word is left to start behind the letter before
as behind a mark, no dollar sign is to come, and no mark is a capital. -/
structure Asked (previous : Option (Char × Char)) (letters : List (Char × Char)) : Prop where
  before : ∀ before ∈ previous, ∀ here ∈ letters.head?, isMark before = true → here.1 = '_'
  inside : ∀ letter ∈ letters.tail, letter.1 ≠ '$'
  small : ∀ letter ∈ letters, isMark letter = true → isCapital letter = false

/-- The next letter was stepped over, and is no mark. -/
theorem Asked.skip (hasked : Asked previous (letter :: next :: rest)) (hnext : next.1 ≠ '_') :
    Asked (some next) rest where
  before := by
    rintro _ ⟨⟩ here hhere hmark
    have hdollar := hasked.inside next List.mem_cons_self
    simp [isMark, hdollar, hnext] at hmark
  inside letter hmem := hasked.inside letter (List.mem_cons_of_mem _ (List.mem_of_mem_tail hmem))
  small letter hmem := hasked.small letter (by simp [hmem])

/-- No word starts at the next letter as behind a mark. -/
theorem Asked.step (hasked : Asked previous (letter :: next :: rest))
    (hnone : ¬ (isMark letter && next.1 != '_') = true) : Asked (some letter) (next :: rest) where
  before := by
    rintro _ ⟨⟩ _ ⟨⟩ hmark
    simpa [hmark] using hnone
  inside letter hmem := hasked.inside letter (List.mem_cons_of_mem _ hmem)
  small letter hmem := hasked.small letter (List.mem_cons_of_mem _ hmem)

/-- Behind the letter before a word is left to start only at a capital. -/
theorem Asked.wordRests (hasked : Asked previous (letter :: rest)) :
    wordRests (previous.toList ++ letter :: rest) =
      (if previous.any (fun before => !isCapital before) && isCapital letter then
        [(letter :: rest).map (·.2)] else []) ++ wordRests (letter :: rest) := by
  cases previous with
  | none => rfl
  | some before =>
      have hmark : (isMark before && letter.1 != '_') = false := by
        cases hmark : isMark before with
        | false => rfl
        | true => simp [hasked.before before rfl letter rfl hmark]
      rw [Option.toList_some, List.singleton_append, SearchKey.wordRests, startsWord, hmark,
        Bool.false_or, Option.any_some]

/-- The pass finds the words that start between neighbours. -/
theorem Asked.wordStarts (hasked : Asked previous letters) :
    wordStarts previous letters = SearchKey.wordRests (previous.toList ++ letters) := by
  fun_induction SearchKey.wordStarts previous letters with
  | case1 previous =>
      cases previous with
      | none => rfl
      | some before => rfl
  | case2 previous letter hcapital =>
      rw [hasked.wordRests, if_pos hcapital]
      rfl
  | case3 previous letter hsame =>
      rw [hasked.wordRests, if_neg hsame]
      rfl
  | case4 previous letter next rest hfound ih =>
      obtain ⟨hmark, hnext⟩ := Bool.and_eq_true_iff.1 hfound
      have hsmall : isCapital letter = false := hasked.small letter List.mem_cons_self hmark
      have hstarts : startsWord letter next = true := Bool.or_eq_true_iff.2 (Or.inl hfound)
      rw [hasked.wordRests, hsmall, Bool.and_false, if_neg Bool.false_ne_true,
        SearchKey.wordRests, if_pos hstarts, ih (hasked.skip (bne_iff_ne.1 hnext))]
      rfl
  | case5 previous letter next rest hnone hcapital ih =>
      rw [hasked.wordRests, if_pos hcapital, ih (hasked.step hnone)]
      rfl
  | case6 previous letter next rest hnone hsame ih =>
      rw [hasked.wordRests, if_neg hsame, ih (hasked.step hnone)]
      rfl

/-! ## ASCII names -/

/-- A word of a name starts at a place behind its first character: behind a mark, or at a capital
behind a character that is none. -/
def StartsWordAt (name : List Char) (place : Nat) : Prop :=
  ∃ before here, 0 < place ∧ name[place - 1]? = some before ∧ name[place]? = some here ∧
    ((before = '$' ∨ before = '_') ∧ here ≠ '_' ∨ here.isUpper = true ∧ before.isUpper = false)

theorem isCapital_toLower (c : Char) : isCapital (c, c.toLower) = c.isUpper := by
  have hlower := toNat_toLower c
  rw [isUpper_eq, isCapital]
  by_cases hcapital : 65 ≤ c.toNat ∧ c.toNat ≤ 90
  · rw [if_pos hcapital] at hlower
    have hne : c ≠ c.toLower := by
      intro heq
      rw [← heq] at hlower
      omega
    simpa [hcapital] using hne
  · simp [hcapital, toLower_eq_self hcapital]

/-- A word starts behind a mark, or at a capital behind a character that is none. -/
theorem startsWord_toLower_iff (before here : Char) :
    startsWord (before, before.toLower) (here, here.toLower) = true ↔
      (before = '$' ∨ before = '_') ∧ here ≠ '_' ∨
        here.isUpper = true ∧ before.isUpper = false := by
  simp [startsWord, isMark, isCapital_toLower, and_comm]

/-- At the start of a name without dollar signs inside all that the pass keeps holds. -/
theorem asked_none {name : List Char} (hdollar : '$' ∉ name.tail) :
    Asked none (name.map fun c => (c, c.toLower)) where
  before := by
    rintro _ ⟨⟩
  inside := by
    rw [← List.map_tail, List.forall_mem_map]
    rintro c hmem rfl
    exact hdollar hmem
  small := by
    rw [List.forall_mem_map]
    intro c _ hmark
    rw [isCapital_toLower]
    simp only [isMark, Bool.or_eq_true, beq_iff_eq] at hmark
    rcases hmark with rfl | rfl
    · rfl
    · rfl

/-- The words of a name that one pass finds are those at the places where a word starts. -/
theorem mem_wordStarts_iff {name key : List Char} (hdollar : '$' ∉ name.tail) :
    key ∈ wordStarts none (name.zip (asciiLower name)) ↔
      ∃ place, StartsWordAt name place ∧ key = asciiLower (name.drop place) := by
  rw [asciiLower, ← List.map_prod_left_eq_zip, (asked_none hdollar).wordStarts, Option.toList_none,
    List.nil_append, mem_wordRests_iff]
  simp only [List.getElem?_map, Option.map_eq_some_iff]
  constructor
  · rintro ⟨place, -, -, ⟨before, hbefore, rfl⟩, ⟨here, hhere, rfl⟩, hstarts, rfl⟩
    refine ⟨place + 1, ⟨before, here, Nat.succ_pos place, hbefore, hhere, ?_⟩, ?_⟩
    · exact (startsWord_toLower_iff before here).1 hstarts
    · simp [asciiLower, ← List.map_drop]
  · rintro ⟨place, ⟨before, here, hplace, hbefore, hhere, hstarts⟩, rfl⟩
    obtain ⟨place, rfl⟩ := Nat.exists_eq_add_of_le' hplace
    refine ⟨place, _, _, ⟨before, hbefore, rfl⟩, ⟨here, hhere, rfl⟩, ?_, ?_⟩
    · exact (startsWord_toLower_iff before here).2 hstarts
    · simp [asciiLower, ← List.map_drop]

/-- The short keys are the short name and its rests from each word on. -/
theorem mem_shortKeys_iff {name key : List Char} (hascii : ∀ c ∈ shortChars name, c.toNat < 128)
    (hdollar : '$' ∉ (shortChars name).tail) :
    key ∈ shortKeys name ↔ key = asciiLower (shortChars name) ∨
      ∃ place, StartsWordAt (shortChars name) place ∧
        key = asciiLower ((shortChars name).drop place) := by
  have hlength : (asciiLower (shortChars name)).length = (shortChars name).length :=
    List.length_map _
  rw [shortKeys, lowerChars_of_ascii hascii, if_pos hlength.symm, List.mem_cons,
    mem_wordStarts_iff hdollar]

theorem mem_of_mem_shortChars {name : List Char} {c : Char} (hmem : c ∈ shortChars name) :
    c ∈ name := by
  rw [shortChars, List.mem_reverse] at hmem
  exact List.mem_reverse.1 (List.takeWhile_subset _ hmem)

/-- A word is not empty. -/
theorem StartsWordAt.drop_ne_nil {name : List Char} {place : Nat}
    (hstarts : StartsWordAt name place) : name.drop place ≠ [] := by
  obtain ⟨before, here, -, -, hhere, -⟩ := hstarts
  obtain ⟨hplace, -⟩ := List.getElem?_eq_some_iff.1 hhere
  rw [Ne, List.drop_eq_nil_iff]
  exact Nat.not_le.2 hplace

/-- The keys are the full name and the short keys that are not empty. -/
theorem mem_keys_iff {kind : SymbolKind} {name key : String} (hkind : kind ≠ .namespaceMark) :
    key ∈ keys kind name ↔ key = lower name ∨
      ∃ chars ∈ shortKeys name.toList, chars ≠ [] ∧ key = String.ofList chars := by
  rw [keys, if_neg hkind, List.mem_eraseDups, List.map_cons, List.mem_cons]
  refine or_congr Iff.rfl ?_
  simp only [List.mem_map, List.mem_filter, Bool.not_eq_true', List.isEmpty_eq_false_iff, and_assoc,
    @eq_comm _ key]

theorem head?_keys (kind : SymbolKind) (name : String) :
    (keys kind name).head? = some (lower name) := by
  rw [keys]
  split
  · rfl
  · rw [List.map_cons, List.eraseDups_cons]
    rfl

theorem nodup_keys (kind : SymbolKind) (name : String) : (keys kind name).Nodup := by
  rw [keys]
  split
  · exact List.nodup_singleton _
  · exact (eraseDups_spec _).2

/-- Of a symbol that is no namespace and whose short name has a dollar sign at most in front, the
keys are its lower-case name, which comes first, its lower-case short name, and the lower-case
rest of the short name from each place where a word starts. -/
theorem keys_are_word_suffixes {kind : SymbolKind} {name : String}
    (hkind : kind ≠ .namespaceMark) (hascii : ∀ c ∈ name.toList, c.toNat < 128)
    (hshort : shortName name ≠ "") (hdollar : '$' ∉ (shortName name).toList.tail) :
    (keys kind name).Nodup ∧ (keys kind name).head? = some (lower name) ∧
      ∀ key, key ∈ keys kind name ↔ key = lower name ∨ key = lower (shortName name) ∨
        ∃ place, StartsWordAt (shortName name).toList place ∧
          key = lower (String.ofList ((shortName name).toList.drop place)) := by
  refine ⟨nodup_keys kind name, head?_keys kind name, fun key => ?_⟩
  rw [shortName, String.toList_ofList] at hdollar
  rw [shortName, Ne, String.ofList_eq_empty_iff] at hshort
  have hplain : ∀ c ∈ shortChars name.toList, c.toNat < 128 := by
    intro c hmem
    exact hascii c (mem_of_mem_shortChars hmem)
  have hword : ∀ place, lower (String.ofList ((shortChars name.toList).drop place)) =
      String.ofList (asciiLower ((shortChars name.toList).drop place)) := by
    intro place
    exact lower_ofList_of_ascii fun c hmem => hplain c (List.mem_of_mem_drop hmem)
  rw [mem_keys_iff hkind, shortName, String.toList_ofList, lower_ofList_of_ascii hplain]
  refine or_congr Iff.rfl ?_
  simp only [mem_shortKeys_iff hplain hdollar, hword]
  constructor
  · rintro ⟨chars, rfl | ⟨place, hstarts, rfl⟩, -, rfl⟩
    · exact Or.inl rfl
    · exact Or.inr ⟨place, hstarts, rfl⟩
  · rintro (rfl | ⟨place, hstarts, rfl⟩)
    · exact ⟨_, Or.inl rfl, mt List.map_eq_nil_iff.1 hshort, rfl⟩
    · exact ⟨_, Or.inr ⟨place, hstarts, rfl⟩, mt List.map_eq_nil_iff.1 hstarts.drop_ne_nil, rfl⟩

/-- Underscores in a row, at the end and behind the dollar sign, and capitals in a row. -/
theorem keys_are_word_suffixes_mixed :
    let name := "App\\$_getURL__x9_"
    (∀ c ∈ name.toList, c.toNat < 128) ∧ shortName name ≠ "" ∧
      '$' ∉ (shortName name).toList.tail ∧ (keys .property name).Nodup ∧
      (keys .property name).head? = some "app\\$_geturl__x9_" ∧
      StartsWordAt (shortName name).toList 2 ∧ "geturl__x9_" ∈ keys .property name ∧
      StartsWordAt (shortName name).toList 5 ∧ "url__x9_" ∈ keys .property name := by
  intro name
  have hascii : ∀ c ∈ name.toList, c.toNat < 128 := by
    have hall : name.toList.all (fun c => c.toNat < 128) = true := by decide
    simpa only [List.all_eq_true, decide_eq_true_eq] using hall
  have hshort : shortName name ≠ "" := by decide
  have hdollar : '$' ∉ (shortName name).toList.tail := by decide
  have hbehind : StartsWordAt (shortName name).toList 2 :=
    ⟨'_', 'g', by decide, by decide, by decide, by decide⟩
  have hcapital : StartsWordAt (shortName name).toList 5 :=
    ⟨'t', 'U', by decide, by decide, by decide, by decide⟩
  obtain ⟨hnodup, hhead, hmem⟩ := @keys_are_word_suffixes .property name (by decide) hascii
    hshort hdollar
  have hfirst : lower name = "app\\$_geturl__x9_" := by decide
  refine ⟨hascii, hshort, hdollar, hnodup, hfirst ▸ hhead, hbehind, ?_, hcapital, ?_⟩
  · exact (hmem _).2 (Or.inr (Or.inr ⟨2, hbehind, by decide⟩))
  · exact (hmem _).2 (Or.inr (Or.inr ⟨5, hcapital, by decide⟩))

/-- A dollar sign right behind a mark is stepped over, and so is the word behind it. -/
example : keys .localVariable "$$name" = ["$$name", "$name"] := by
  decide

end SymbolIndex.SearchKey
