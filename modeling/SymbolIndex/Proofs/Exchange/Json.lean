import Mathlib.Data.List.Basic
import SymbolIndex.Exchange.Json

/-!
# JSON text is read back

Every datum that is made of nulls, truth values, natural numbers, texts, lists and maps from texts
is read back from the JSON text it is written as, whatever characters its texts have and however
deeply it is nested: `parse?_print`.
-/

namespace SymbolIndex.Json

open SymbolIndex.Text

/-! ### Quoted texts -/

/-- How a character inside quotes is read back: the control characters without an escape of their
own come as a number. -/
def pieceOf (c : Char) : Piece :=
  if c.toNat < 0x20 ∧ c ∉ ['\x08', '\x0c', '\n', '\r', '\t'] then .unit c.toNat else .char c

theorem hexNat?_hexPadded_of_lt : ∀ value < 0x20, hexNat? (hexPadded 4 value) = some value := by
  decide

/-- A character inside quotes has a short escape, is written as a number, or stands for itself. -/
theorem escape_cases (c : Char) :
    (∃ mark, escape c = ['\\', mark] ∧ simpleEscape? mark = some c ∧ pieceOf c = .char c) ∨
      (c.toNat < 0x20 ∧ escape c = ['\\', 'u'] ++ hexPadded 4 c.toNat ∧
        pieceOf c = .unit c.toNat) ∨
      (c ≠ '"' ∧ c ≠ '\\' ∧ ¬ c.toNat < 0x20 ∧ escape c = [c] ∧ pieceOf c = .char c) := by
  by_cases hshort : c ∈ ['"', '\\', '\x08', '\x0c', '\n', '\r', '\t']
  · left
    simp only [List.mem_cons, List.not_mem_nil, or_false] at hshort
    rcases hshort with rfl | rfl | rfl | rfl | rfl | rfl | rfl
    · exact ⟨'"', rfl, rfl, rfl⟩
    · exact ⟨'\\', rfl, rfl, rfl⟩
    · exact ⟨'b', rfl, rfl, rfl⟩
    · exact ⟨'f', rfl, rfl, rfl⟩
    · exact ⟨'n', rfl, rfl, rfl⟩
    · exact ⟨'r', rfl, rfl, rfl⟩
    · exact ⟨'t', rfl, rfl, rfl⟩
  · right
    simp only [List.mem_cons, List.not_mem_nil, or_false, not_or] at hshort
    by_cases hcontrol : c.toNat < 0x20
    · left
      simp [escape, pieceOf, hshort, hcontrol]
    · right
      simp [escape, pieceOf, hshort, hcontrol]

theorem readPieces?_unit {value : Nat} {pieces : List Piece} {chars rest : List Char}
    (hvalue : value < 0x20) (h : readPieces? chars = some (pieces, rest)) :
    readPieces? (['\\', 'u'] ++ hexPadded 4 value ++ chars) =
      some (.unit value :: pieces, rest) := by
  have hread := hexNat?_hexPadded_of_lt value hvalue
  change (hexNat? (hexPadded 4 value)).bind _ = _
  rw [hread]
  change (readPieces? chars).bind _ = _
  rw [h]
  rfl

/-- An escaped character is read as one piece. -/
theorem readPieces?_escape (c : Char) {pieces : List Piece} {chars rest : List Char}
    (h : readPieces? chars = some (pieces, rest)) :
    readPieces? (escape c ++ chars) = some (pieceOf c :: pieces, rest) := by
  rcases escape_cases c with ⟨mark, hescape, hmark, hpiece⟩ | ⟨hcontrol, hescape, hpiece⟩ |
    ⟨hquote, hslash, hcontrol, hescape, hpiece⟩
  · have hunit : mark ≠ 'u' := by
      rintro rfl
      simp [simpleEscape?] at hmark
    rw [hescape, hpiece]
    simp [readPieces?, hmark, h, hunit]
  · rw [hescape, hpiece]
    exact readPieces?_unit hcontrol h
  · rw [hescape, hpiece]
    simp [readPieces?, hslash, hcontrol, h]

theorem readPieces?_quote (text rest : List Char) :
    readPieces? (text.flatMap escape ++ '"' :: rest) = some (text.map pieceOf, rest) := by
  induction text with
  | nil => rfl
  | cons c text ih =>
    simp only [List.flatMap_cons, List.append_assoc]
    exact readPieces?_escape c ih

/-- A numeric escape outside the surrogates stands for its own character. -/
theorem spell?_unit {value : Nat} (hvalue : value < 0xd800) (pieces : List Piece) :
    spell? (.unit value :: pieces) = (spell? pieces).map (Char.ofNat value :: ·) := by
  have hhigh : ¬ (0xd800 ≤ value ∧ value ≤ 0xdbff) := by omega
  have hlow : ¬ (0xdc00 ≤ value ∧ value ≤ 0xdfff) := by omega
  have hhalf : ¬ (0xd800 ≤ value ∧ value ≤ 0xdfff) := by omega
  cases pieces with
  | nil => simp [spell?, hhalf]
  | cons piece pieces =>
    cases piece with
    | char c => simp [spell?, hhalf]
    | unit low => simp [spell?, hhigh, hlow]

theorem spell?_map_pieceOf (text : List Char) : spell? (text.map pieceOf) = some text := by
  induction text with
  | nil => simp [spell?]
  | cons c text ih =>
    rw [List.map_cons]
    rcases escape_cases c with ⟨_, _, _, hpiece⟩ | ⟨hcontrol, _, hpiece⟩ | ⟨_, _, _, _, hpiece⟩
    · simp [hpiece, spell?, ih]
    · rw [hpiece, spell?_unit (by omega), ih]
      simp
    · simp [hpiece, spell?, ih]

theorem readText?_quote (text : String) (rest : List Char) :
    readText? (text.toList.flatMap escape ++ '"' :: rest) = some (.text text, rest) := by
  simp [readText?, readPieces?_quote, spell?_map_pieceOf]

/-! ### Numbers -/

theorem isDigit_of_mem_decimal {value : Nat} {c : Char} (h : c ∈ decimal value) :
    c.isDigit = true :=
  Nat.isDigit_of_mem_toDigits (by decide) (by decide) h

theorem digitsToNat_decimal (value : Nat) : digitsToNat (decimal value) = value :=
  Nat.ofDigitChars_ten_toDigits

theorem eq_zero_of_digitChar_eq : ∀ digit < 10, digit.digitChar = '0' → digit = 0 := by
  decide

/-- Only zero is written with a leading zero. -/
theorem eq_zero_of_head?_decimal {value : Nat} (h : (decimal value).head? = some '0') :
    value = 0 := by
  induction value using Nat.strongRecOn with
  | ind value ih =>
    rw [decimal, Nat.toDigits_eq_if (by decide)] at h
    split at h
    · apply eq_zero_of_digitChar_eq value ‹_›
      simpa using h
    · rw [List.head?_append_of_ne_nil _ Nat.toDigits_ne_nil] at h
      have hzero : value / 10 = 0 := ih (value / 10) (by omega) h
      omega

/-- What follows a number does not go on with it: the end of the text, a comma or a bracket. -/
def EndsNumber (rest : List Char) : Prop :=
  ∀ c ∈ rest.head?, c = ',' ∨ c = ']' ∨ c = '\x7d'

theorem EndsNumber.takeWhile_isDigit {rest : List Char} (h : EndsNumber rest) :
    rest.takeWhile Char.isDigit = [] := by
  cases rest with
  | nil => rfl
  | cons c rest => rcases h c rfl with rfl | rfl | rfl <;> rfl

theorem EndsNumber.dropWhile_isDigit {rest : List Char} (h : EndsNumber rest) :
    rest.dropWhile Char.isDigit = rest := by
  have happend := @List.takeWhile_append_dropWhile Char Char.isDigit rest
  rwa [h.takeWhile_isDigit, List.nil_append] at happend

/-- The digits of a number are read to their end. -/
theorem readDigits?_decimal (value : Nat) {rest : List Char} (h : EndsNumber rest) :
    readDigits? (decimal value ++ rest) = some (value, rest) := by
  have hdigits : ∀ c ∈ decimal value, c.isDigit = true := fun _ => isDigit_of_mem_decimal
  have htaken : (decimal value ++ rest).takeWhile Char.isDigit = decimal value := by
    rw [List.takeWhile_append_of_pos hdigits, h.takeWhile_isDigit, List.append_nil]
  have hleft : (decimal value ++ rest).dropWhile Char.isDigit = rest := by
    rw [List.dropWhile_append_of_pos hdigits, h.dropWhile_isDigit]
  unfold readDigits?
  simp only [htaken, hleft]
  split
  · exact absurd ‹decimal value = []› Nat.toDigits_ne_nil
  · rename_i hlong
    have hzero : value = 0 := eq_zero_of_head?_decimal (by rw [hlong]; rfl)
    subst hzero
    simp [decimal] at hlong
  · rw [digitsToNat_decimal]

theorem readTail?_of_endsNumber {rest : List Char} (h : EndsNumber rest) :
    readTail? rest = some (false, rest) := by
  cases rest with
  | nil => simp [readTail?]
  | cons c rest => rcases h c rfl with rfl | rfl | rfl <;> simp [readTail?]

theorem exists_decimal_eq_cons (value : Nat) :
    ∃ c digits, decimal value = c :: digits ∧ c.isDigit = true := by
  cases hdigits : decimal value with
  | nil => exact absurd hdigits Nat.toDigits_ne_nil
  | cons c digits =>
    have hmem : c ∈ decimal value := by simp [hdigits]
    exact ⟨c, digits, rfl, isDigit_of_mem_decimal hmem⟩

theorem isBlank_of_isDigit {c : Char} (h : c.isDigit = true) : isBlank c = false := by
  simp only [isBlank, Bool.or_eq_false_iff, beq_eq_false_iff_ne]
  refine ⟨⟨⟨?_, ?_⟩, ?_⟩, ?_⟩ <;> rintro rfl <;> simp at h

/-- A number is read back, where something follows that does not go on with it. -/
theorem readNumber?_decimal (value : Nat) {rest : List Char} (h : EndsNumber rest) :
    readNumber? (decimal value ++ rest) = some (.natural value, rest) := by
  obtain ⟨c, digits, hcons, hdigit⟩ := exists_decimal_eq_cons value
  have hsign : c ≠ '-' := by
    rintro rfl
    simp at hdigit
  have hread := readDigits?_decimal value h
  rw [hcons, List.cons_append] at hread ⊢
  unfold readNumber?
  split
  · simp_all
  · simp [hread, readTail?_of_endsNumber h]

/-! ### Values -/

mutual

/-- JSON text keeps all of the datum. -/
def IsKept : Datum → Prop
  | .null | .bool _ | .natural _ | .text _ => True
  | .list items => AreKept items
  | .map entries => AreEntriesKept entries
  | _ => False

def AreKept : List Datum → Prop
  | [] => True
  | item :: rest => IsKept item ∧ AreKept rest

def AreEntriesKept : List (Datum × Datum) → Prop
  | [] => True
  | (key, value) :: rest => (∃ text, key = .text text) ∧ IsKept value ∧ AreEntriesKept rest

end

/-- No value starts with a blank or with the bracket that closes a list. -/
theorem exists_write_eq_cons {datum : Datum} (h : IsKept datum) :
    ∃ c chars, write datum = c :: chars ∧ isBlank c = false ∧ c ≠ ']' := by
  cases datum with
  | null => exact ⟨'n', _, rfl, rfl, by decide⟩
  | bool value =>
    cases value with
    | true => exact ⟨'t', _, rfl, rfl, by decide⟩
    | false => exact ⟨'f', _, rfl, rfl, by decide⟩
  | natural value =>
    obtain ⟨c, digits, hcons, hdigit⟩ := exists_decimal_eq_cons value
    refine ⟨c, digits, by rw [write, hcons], ?_, ?_⟩
    · exact isBlank_of_isDigit hdigit
    · rintro rfl
      simp at hdigit
  | text value => exact ⟨'"', _, rfl, rfl, by decide⟩
  | list items => exact ⟨'[', _, rfl, rfl, by decide⟩
  | map entries => exact ⟨'\x7b', _, rfl, rfl, by decide⟩
  | _ => simp [IsKept] at h

theorem exists_writeItems_eq_cons {item : Datum} {items : List Datum}
    (h : AreKept (item :: items)) :
    ∃ c chars, writeItems (item :: items) = c :: chars ∧ isBlank c = false ∧ c ≠ ']' := by
  obtain ⟨c, chars, hcons, hblank, hbracket⟩ := exists_write_eq_cons h.1
  cases items with
  | nil => exact ⟨c, chars, by rw [writeItems, hcons], hblank, hbracket⟩
  | cons next items =>
    exact ⟨c, chars ++ ',' :: writeItems (next :: items), by simp [writeItems, hcons], hblank,
      hbracket⟩

theorem exists_writeEntries_eq_cons {entry : Datum × Datum} {entries : List (Datum × Datum)}
    (h : AreEntriesKept (entry :: entries)) :
    ∃ chars, writeEntries (entry :: entries) = '"' :: chars := by
  obtain ⟨⟨text, hkey⟩, _⟩ := h
  cases entries with
  | nil => exact ⟨_, by simp only [writeEntries, hkey, write, quote, List.cons_append]; rfl⟩
  | cons next entries =>
    exact ⟨_, by simp only [writeEntries, hkey, write, quote, List.cons_append]; rfl⟩

theorem skipBlanks_cons {c : Char} (h : isBlank c = false) (chars : List Char) :
    skipBlanks (c :: chars) = c :: chars := by
  simp [skipBlanks, h]

theorem readValue?_decimal (fuel value : Nat) {rest : List Char} (h : EndsNumber rest) :
    readValue? (fuel + 1) (decimal value ++ rest) = some (.natural value, rest) := by
  have hread := readNumber?_decimal value h
  obtain ⟨c, digits, hcons, hdigit⟩ := exists_decimal_eq_cons value
  rw [hcons, List.cons_append] at hread ⊢
  rw [readValue?, skipBlanks_cons (isBlank_of_isDigit hdigit)]
  split <;> simp_all

/-- The words for nothing, true and false are read back. -/
theorem readValue?_word (fuel : Nat) (rest : List Char) :
    readValue? (fuel + 1) ("null".toList ++ rest) = some (.null, rest) ∧
      readValue? (fuel + 1) ("true".toList ++ rest) = some (.bool true, rest) ∧
      readValue? (fuel + 1) ("false".toList ++ rest) = some (.bool false, rest) := by
  exact ⟨rfl, rfl, rfl⟩

theorem readValue?_quote (fuel : Nat) (text : String) (rest : List Char) :
    readValue? (fuel + 1) (quote text ++ rest) = some (.text text, rest) := by
  rw [quote, List.cons_append, List.cons_append, List.append_assoc]
  exact readText?_quote text rest

/-- A list that has items is read by its items. -/
theorem readValue?_list {fuel : Nat} {c : Char} {chars rest : List Char} {items : List Datum}
    (hblank : isBlank c = false) (hbracket : c ≠ ']')
    (h : readItems? fuel (c :: chars) = some (items, rest)) :
    readValue? (fuel + 1) ('[' :: c :: chars) = some (.list items, rest) := by
  rw [readValue?, skipBlanks_cons (by decide)]
  simp only [skipBlanks_cons hblank]
  split <;> simp_all

/-- A map that has entries is read by its entries. -/
theorem readValue?_map {fuel : Nat} {chars rest : List Char} {entries : List (Datum × Datum)}
    (h : readEntries? fuel ('"' :: chars) = some (entries, rest)) :
    readValue? (fuel + 1) ('\x7b' :: '"' :: chars) = some (.map entries, rest) := by
  have hopen : readValue? (fuel + 1) ('\x7b' :: '"' :: chars) =
      (readEntries? fuel ('"' :: chars)).bind fun read => some (.map read.1, read.2) := rfl
  rw [hopen, h, Option.bind_some]

theorem readItems?_last {fuel : Nat} {chars rest : List Char} {item : Datum}
    (h : readValue? fuel chars = some (item, ']' :: rest)) :
    readItems? (fuel + 1) chars = some ([item], rest) := by
  change (readValue? fuel chars).bind _ = _
  rw [h]
  rfl

/-- A list goes on behind a comma. -/
theorem readItems?_cons {fuel : Nat} {chars more rest : List Char} {item : Datum}
    {items : List Datum} (hitem : readValue? fuel chars = some (item, ',' :: more))
    (hitems : readItems? fuel more = some (items, rest)) :
    readItems? (fuel + 1) chars = some (item :: items, rest) := by
  change (readValue? fuel chars).bind _ = _
  rw [hitem]
  change (readItems? fuel more).bind _ = _
  rw [hitems]
  rfl

theorem readEntries?_last {fuel : Nat} {key : String} {chars rest : List Char} {value : Datum}
    (h : readValue? fuel chars = some (value, '\x7d' :: rest)) :
    readEntries? (fuel + 1) (quote key ++ ':' :: chars) = some ([(.text key, value)], rest) := by
  rw [quote, List.cons_append, List.cons_append, List.append_assoc]
  change (readText? _).bind _ = _
  rw [List.singleton_append, readText?_quote]
  change (readValue? fuel chars).bind _ = _
  rw [h]
  rfl

/-- A map goes on behind a comma. -/
theorem readEntries?_cons {fuel : Nat} {key : String} {chars more rest : List Char}
    {value : Datum} {entries : List (Datum × Datum)}
    (hvalue : readValue? fuel chars = some (value, ',' :: more))
    (hentries : readEntries? fuel more = some (entries, rest)) :
    readEntries? (fuel + 1) (quote key ++ ':' :: chars) =
      some ((.text key, value) :: entries, rest) := by
  rw [quote, List.cons_append, List.cons_append, List.append_assoc]
  change (readText? _).bind _ = _
  rw [List.singleton_append, readText?_quote]
  change (readValue? fuel chars).bind _ = _
  rw [hvalue]
  change (readEntries? fuel more).bind _ = _
  rw [hentries]
  rfl

mutual

/-- What is written of a datum is read as the datum, if there is fuel for every character. -/
theorem readValue?_write : ∀ (datum : Datum) (fuel : Nat) (rest : List Char), IsKept datum →
    2 * (write datum).length ≤ fuel → EndsNumber rest →
    readValue? fuel (write datum ++ rest) = some (datum, rest)
  | datum, 0, _, hkept, hfuel, _ => by
    obtain ⟨c, chars, hwrite, _⟩ := exists_write_eq_cons hkept
    simp [hwrite] at hfuel
  | .null, fuel + 1, rest, _, _, _ => (readValue?_word fuel rest).1
  | .bool true, fuel + 1, rest, _, _, _ => (readValue?_word fuel rest).2.1
  | .bool false, fuel + 1, rest, _, _, _ => (readValue?_word fuel rest).2.2
  | .natural value, fuel + 1, _, _, _, hrest => readValue?_decimal fuel value hrest
  | .text value, fuel + 1, rest, _, _, _ => readValue?_quote fuel value rest
  | .list [], _ + 1, _, _, _, _ => rfl
  | .list (item :: items), fuel + 1, rest, hkept, hfuel, _ => by
    simp only [IsKept] at hkept
    obtain ⟨c, chars, hcons, hblank, hbracket⟩ := exists_writeItems_eq_cons hkept
    have hread := readItems?_write (item :: items) fuel rest (by simp) hkept (by
      simp only [write, List.length_append, List.length_cons, List.length_nil] at hfuel
      omega)
    rw [hcons] at hread
    simp only [write, hcons, List.cons_append, List.append_assoc] at hread ⊢
    exact readValue?_list hblank hbracket hread
  | .map [], _ + 1, _, _, _, _ => rfl
  | .map (entry :: entries), fuel + 1, rest, hkept, hfuel, _ => by
    simp only [IsKept] at hkept
    obtain ⟨chars, hcons⟩ := exists_writeEntries_eq_cons hkept
    have hread := readEntries?_write (entry :: entries) fuel rest (by simp) hkept (by
      simp only [write, List.length_append, List.length_cons, List.length_nil] at hfuel
      omega)
    rw [hcons] at hread
    simp only [write, hcons, List.cons_append, List.append_assoc] at hread ⊢
    exact readValue?_map hread

theorem readItems?_write : ∀ (items : List Datum) (fuel : Nat) (rest : List Char),
    items ≠ [] → AreKept items → 2 * (writeItems items).length < fuel →
    readItems? fuel (writeItems items ++ ']' :: rest) = some (items, rest)
  | [], _, _, hne, _, _ => absurd rfl hne
  | _, 0, _, _, _, hfuel => absurd hfuel (Nat.not_lt_zero _)
  | [item], fuel + 1, rest, _, hkept, hfuel => by
    simp only [writeItems] at hfuel ⊢
    have hitem := readValue?_write item fuel (']' :: rest) hkept.1 (by omega)
      (by simp [EndsNumber])
    exact readItems?_last hitem
  | item :: next :: items, fuel + 1, rest, _, hkept, hfuel => by
    have hwrite : writeItems (item :: next :: items) =
        write item ++ ',' :: writeItems (next :: items) := by
      simp [writeItems]
    rw [hwrite] at hfuel ⊢
    simp only [List.length_append, List.length_cons] at hfuel
    have hitem := readValue?_write item fuel (',' :: (writeItems (next :: items) ++ ']' :: rest))
      hkept.1 (by omega) (by simp [EndsNumber])
    have hitems := readItems?_write (next :: items) fuel rest (by simp) hkept.2 (by omega)
    rw [List.append_assoc, List.cons_append]
    exact readItems?_cons hitem hitems

theorem readEntries?_write : ∀ (entries : List (Datum × Datum)) (fuel : Nat) (rest : List Char),
    entries ≠ [] → AreEntriesKept entries → 2 * (writeEntries entries).length < fuel →
    readEntries? fuel (writeEntries entries ++ '\x7d' :: rest) = some (entries, rest)
  | [], _, _, hne, _, _ => absurd rfl hne
  | _, 0, _, _, _, hfuel => absurd hfuel (Nat.not_lt_zero _)
  | [(key, value)], fuel + 1, rest, _, hkept, hfuel => by
    obtain ⟨⟨text, rfl⟩, hvalue, _⟩ := hkept
    simp only [writeEntries, write, List.append_assoc, List.cons_append, List.length_append,
      List.length_cons] at hfuel ⊢
    have hread := readValue?_write value fuel ('\x7d' :: rest) hvalue (by omega)
      (by simp [EndsNumber])
    exact readEntries?_last hread
  | (key, value) :: next :: entries, fuel + 1, rest, _, hkept, hfuel => by
    obtain ⟨⟨text, rfl⟩, hvalue, hentries⟩ := hkept
    have hwrite : writeEntries ((.text text, value) :: next :: entries) =
        quote text ++ ':' :: (write value ++ ',' :: writeEntries (next :: entries)) := by
      simp [writeEntries, write]
    rw [hwrite] at hfuel ⊢
    simp only [List.length_append, List.length_cons] at hfuel
    have hread := readValue?_write value fuel
      (',' :: (writeEntries (next :: entries) ++ '\x7d' :: rest)) hvalue (by omega)
      (by simp [EndsNumber])
    have hmore := readEntries?_write (next :: entries) fuel rest (by simp) hentries (by omega)
    simp only [List.append_assoc, List.cons_append]
    exact readEntries?_cons hread hmore

end

/-- What JSON text keeps is read back from it. -/
theorem parse?_print {datum : Datum} (h : IsKept datum) : parse? (print datum) = some datum := by
  have hread := readValue?_write datum (2 * (write datum).length + 2) [] h (by omega)
    (by simp [EndsNumber])
  rw [List.append_nil] at hread
  rw [parse?, print, String.toList_ofList, hread]
  rfl

end SymbolIndex.Json
