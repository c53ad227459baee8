import Mathlib.Algebra.Group.Nat.Defs
import Mathlib.Data.List.Basic
import SymbolIndex.Exchange.MessagePack

/-!
# MessagePack bytes are read back

Every datum that is made of nulls, truth values, 64-bit natural numbers, texts, lists and maps,
with lengths below 2^32, is read back from its bytes exactly if it is not nested too deeply:
`parse?_write`. Each form that the writer chooses for a number or a length is recognised by its
first byte.
-/

namespace SymbolIndex.MessagePack

/-! ### Numbers -/

@[simp]
theorem length_bigEndian (width value : Nat) : (bigEndian width value).length = width := by
  induction width generalizing value with
  | zero => rfl
  | succ width ih => simp [bigEndian, ih]

theorem ofBigEndian_append (bytes : List UInt8) (byte : UInt8) :
    ofBigEndian (bytes ++ [byte]) = 256 * ofBigEndian bytes + byte.toNat := by
  simp [ofBigEndian]

theorem ofBigEndian_bigEndian (width : Nat) {value : Nat} (h : value < 256 ^ width) :
    ofBigEndian (bigEndian width value) = value := by
  induction width generalizing value with
  | zero =>
    have hzero : value = 0 := by simpa using h
    simp [hzero, bigEndian, ofBigEndian]
  | succ width ih =>
    have hhigh : value / 256 < 256 ^ width := by
      rw [Nat.div_lt_iff_lt_mul (by decide)]
      simpa [Nat.pow_succ] using h
    rw [bigEndian, ofBigEndian_append, ih hhigh, UInt8.toNat_ofNat']
    exact Nat.div_add_mod value 256

theorem takeBytes?_append {bytes : List UInt8} {count : Nat} (h : bytes.length = count)
    (rest : List UInt8) : takeBytes? count (bytes ++ rest) = some (bytes, rest) := by
  subst h
  simp [takeBytes?]

theorem readWord?_bigEndian (width : Nat) {value : Nat} (h : value < 256 ^ width)
    (rest : List UInt8) : readWord? width (bigEndian width value ++ rest) = some (value, rest) := by
  have htaken := takeBytes?_append (length_bigEndian width value) rest
  simp [readWord?, htaken, ofBigEndian_bigEndian width h]

theorem readNatural?_bigEndian (width : Nat) {value : Nat} (h : value < 256 ^ width)
    (rest : List UInt8) :
    readNatural? width (bigEndian width value ++ rest) = some (.natural value, rest) := by
  simp [readNatural?, readWord?_bigEndian width h]

/-- What is measured by a length is read with that length. -/
theorem measured?_bigEndian (width : Nat) {length : Nat} (h : length < 256 ^ width)
    (read : Nat → List UInt8 → Option (Datum × List UInt8)) (rest : List UInt8) :
    measured? width read (bigEndian width length ++ rest) = read length rest := by
  simp [measured?, readWord?_bigEndian width h]

/-! ### First bytes -/

section

variable (fuel room : Nat) (rest : List UInt8)

/-- A list of a given length, if one more may be opened. -/
def readList? (length : Nat) (rest : List UInt8) : Option (Datum × List UInt8) :=
  match room with
  | 0 => none
  | inner + 1 => (readItems? fuel inner length rest).map fun (items, rest) => (.list items, rest)

/-- A map of a given length, if one more may be opened. -/
def readMap? (length : Nat) (rest : List UInt8) : Option (Datum × List UInt8) :=
  match room with
  | 0 => none
  | inner + 1 =>
    (readEntries? fuel inner length rest).map fun (entries, rest) => (.map entries, rest)

theorem toNat_ofNat_of_lt {value : Nat} (h : value < 256) : (UInt8.ofNat value).toNat = value := by
  rw [UInt8.toNat_ofNat']
  exact Nat.mod_eq_of_lt h

/-- A number below 128 is a byte of its own. -/
theorem readValue?_small {value : Nat} (h : value < 0x80) :
    readValue? (fuel + 1) room (UInt8.ofNat value :: rest) = some (.natural value, rest) := by
  have hmark := toNat_ofNat_of_lt (show value < 256 by omega)
  rw [readValue?, if_pos (by omega), hmark]

theorem readValue?_smallMap {length : Nat} (h : length < 16) :
    readValue? (fuel + 1) room (UInt8.ofNat (0x80 + length) :: rest) =
      readMap? fuel room length rest := by
  have hmark := toNat_ofNat_of_lt (show 0x80 + length < 256 by omega)
  rw [readValue?, if_neg (by omega), if_pos (by omega), hmark, Nat.add_sub_cancel_left]
  rfl

theorem readValue?_smallList {length : Nat} (h : length < 16) :
    readValue? (fuel + 1) room (UInt8.ofNat (0x90 + length) :: rest) =
      readList? fuel room length rest := by
  have hmark := toNat_ofNat_of_lt (show 0x90 + length < 256 by omega)
  rw [readValue?, if_neg (by omega), if_neg (by omega), if_pos (by omega), hmark,
    Nat.add_sub_cancel_left]
  rfl

theorem readValue?_smallText {length : Nat} (h : length < 32) :
    readValue? (fuel + 1) room (UInt8.ofNat (0xa0 + length) :: rest) = readText? length rest := by
  have hmark := toNat_ofNat_of_lt (show 0xa0 + length < 256 by omega)
  rw [readValue?, if_neg (by omega), if_neg (by omega), if_neg (by omega), if_pos (by omega),
    hmark, Nat.add_sub_cancel_left]

/-- The first byte of a number tells how many bytes follow. -/
theorem readValue?_natural :
    readValue? (fuel + 1) room (0xcc :: rest) = readNatural? 1 rest ∧
      readValue? (fuel + 1) room (0xcd :: rest) = readNatural? 2 rest ∧
      readValue? (fuel + 1) room (0xce :: rest) = readNatural? 4 rest ∧
      readValue? (fuel + 1) room (0xcf :: rest) = readNatural? 8 rest := by
  refine ⟨?_, ?_, ?_, ?_⟩ <;> rw [readValue?] <;> rfl

/-- The first byte of a long text tells how many bytes its length takes. -/
theorem readValue?_text :
    readValue? (fuel + 1) room (0xd9 :: rest) = measured? 1 readText? rest ∧
      readValue? (fuel + 1) room (0xda :: rest) = measured? 2 readText? rest ∧
      readValue? (fuel + 1) room (0xdb :: rest) = measured? 4 readText? rest := by
  refine ⟨?_, ?_, ?_⟩ <;> rw [readValue?] <;> rfl

theorem readValue?_list :
    readValue? (fuel + 1) room (0xdc :: rest) = measured? 2 (readList? fuel room) rest ∧
      readValue? (fuel + 1) room (0xdd :: rest) = measured? 4 (readList? fuel room) rest := by
  constructor <;> rw [readValue?] <;> rfl

theorem readValue?_map :
    readValue? (fuel + 1) room (0xde :: rest) = measured? 2 (readMap? fuel room) rest ∧
      readValue? (fuel + 1) room (0xdf :: rest) = measured? 4 (readMap? fuel room) rest := by
  constructor <;> rw [readValue?] <;> rfl

end

/-! ### Heads -/

section

variable (fuel room : Nat) (rest : List UInt8)

/-- A number is read back from the shortest form that fits. -/
theorem readValue?_writeNatural {value : Nat} (h : value < UInt64.size) :
    readValue? (fuel + 1) room (writeNatural value ++ rest) = some (.natural value, rest) := by
  unfold writeNatural
  split
  · exact readValue?_small fuel room rest ‹_›
  split
  · rw [List.cons_append, (readValue?_natural fuel room _).1]
    exact readNatural?_bigEndian 1 (by omega) rest
  split
  · rw [List.cons_append, (readValue?_natural fuel room _).2.1]
    exact readNatural?_bigEndian 2 (by omega) rest
  split
  · rw [List.cons_append, (readValue?_natural fuel room _).2.2.1]
    exact readNatural?_bigEndian 4 (by omega) rest
  · rw [List.cons_append, (readValue?_natural fuel room _).2.2.2]
    exact readNatural?_bigEndian 8 (by simpa [UInt64.size] using h) rest

/-- The head of a text leads to its bytes. -/
theorem readValue?_textHead {length : Nat} (h : length < UInt32.size) :
    readValue? (fuel + 1) room (writeLength 0xa0 32 (some 0xd9) 0xda 0xdb length ++ rest) =
      readText? length rest := by
  unfold writeLength
  split
  · exact readValue?_smallText fuel room rest ‹_›
  dsimp only
  split
  · rw [List.cons_append, (readValue?_text fuel room _).1]
    exact measured?_bigEndian 1 (by omega) readText? rest
  split
  · rw [List.cons_append, (readValue?_text fuel room _).2.1]
    exact measured?_bigEndian 2 (by omega) readText? rest
  · rw [List.cons_append, (readValue?_text fuel room _).2.2]
    exact measured?_bigEndian 4 (by simpa [UInt32.size] using h) readText? rest

/-- The head of a list is read as the length of the list. -/
theorem readValue?_listHead {length : Nat} (h : length < UInt32.size) :
    readValue? (fuel + 1) room (writeLength 0x90 16 none 0xdc 0xdd length ++ rest) =
      readList? fuel room length rest := by
  unfold writeLength
  split
  · exact readValue?_smallList fuel room rest ‹_›
  dsimp only
  split
  · rw [List.cons_append, (readValue?_list fuel room _).1]
    exact measured?_bigEndian 2 (by omega) (readList? fuel room) rest
  · rw [List.cons_append, (readValue?_list fuel room _).2]
    exact measured?_bigEndian 4 (by simpa [UInt32.size] using h) (readList? fuel room) rest

/-- The head of a map is read as the length of the map. -/
theorem readValue?_mapHead {length : Nat} (h : length < UInt32.size) :
    readValue? (fuel + 1) room (writeLength 0x80 16 none 0xde 0xdf length ++ rest) =
      readMap? fuel room length rest := by
  unfold writeLength
  split
  · exact readValue?_smallMap fuel room rest ‹_›
  dsimp only
  split
  · rw [List.cons_append, (readValue?_map fuel room _).1]
    exact measured?_bigEndian 2 (by omega) (readMap? fuel room) rest
  · rw [List.cons_append, (readValue?_map fuel room _).2]
    exact measured?_bigEndian 4 (by simpa [UInt32.size] using h) (readMap? fuel room) rest

end

/-! ### Texts -/

theorem toList_loop (bytes : ByteArray) (place : Nat) (taken : List UInt8) :
    ByteArray.toList.loop bytes place taken =
      taken.reverse ++ bytes.data.toList.drop place := by
  fun_induction ByteArray.toList.loop bytes place taken with
  | case1 place taken hlt ih =>
    have hplace : place < bytes.data.toList.length := hlt
    have hbyte : bytes.get! place = bytes.data.toList[place] := by
      change bytes.data[place]! = _
      rw [getElem!_pos bytes.data place hlt, Array.getElem_toList]
    rw [ih, List.drop_eq_getElem_cons hplace, List.reverse_cons, List.append_assoc, hbyte]
    rfl
  | case2 place taken hle =>
    have hplace : bytes.data.toList.length ≤ place := Nat.not_lt.1 hle
    rw [List.drop_eq_nil_of_le hplace, List.append_nil]

theorem toList_eq (bytes : ByteArray) : bytes.toList = bytes.data.toList := by
  simp [ByteArray.toList, toList_loop]

theorem length_utf8 (text : String) : (utf8 text).length = text.utf8ByteSize := by
  rw [utf8, toList_eq]
  rfl

theorem fromUTF8?_utf8 (text : String) :
    String.fromUTF8? ⟨(utf8 text).toArray⟩ = some text := by
  have hbytes : (⟨(utf8 text).toArray⟩ : ByteArray) = text.toByteArray := by
    simp [utf8, toList_eq]
  rw [hbytes, String.fromUTF8?, dif_pos text.isValidUTF8]
  rfl

theorem readText?_utf8 (text : String) (rest : List UInt8) :
    readText? (utf8 text).length (utf8 text ++ rest) = some (.text text, rest) := by
  have htaken : takeBytes? (utf8 text).length (utf8 text ++ rest) = some (utf8 text, rest) :=
    takeBytes?_append rfl rest
  simp [readText?, htaken, fromUTF8?_utf8]

/-- A text is read back from the shortest head that fits. -/
theorem readValue?_writeText (fuel room : Nat) {text : String}
    (h : text.utf8ByteSize < UInt32.size) (rest : List UInt8) :
    readValue? (fuel + 1) room (writeText text ++ rest) = some (.text text, rest) := by
  have hlength : (utf8 text).length < UInt32.size := by rwa [length_utf8]
  rw [writeText, List.append_assoc, readValue?_textHead fuel room _ hlength, readText?_utf8]

/-! ### Values -/

mutual

/-- The bytes keep all of the datum: its numbers fit in 64 bits and its lengths in 32. -/
def IsKept : Datum → Prop
  | .null | .bool _ => True
  | .natural value => value < UInt64.size
  | .text value => value.utf8ByteSize < UInt32.size
  | .list items => items.length < UInt32.size ∧ AreKept items
  | .map entries => entries.length < UInt32.size ∧ AreEntriesKept entries
  | _ => False

def AreKept : List Datum → Prop
  | [] => True
  | item :: rest => IsKept item ∧ AreKept rest

def AreEntriesKept : List (Datum × Datum) → Prop
  | [] => True
  | (key, value) :: rest => IsKept key ∧ IsKept value ∧ AreEntriesKept rest

end

theorem length_writeLength_pos (short limit : Nat) (one? : Option UInt8) (two four : UInt8)
    (length : Nat) : 0 < (writeLength short limit one? two four length).length := by
  unfold writeLength
  cases one? <;> (split_ifs <;> simp)

/-- Every datum takes a byte at least. -/
theorem length_write_pos (datum : Datum) : 0 < (write datum).length := by
  have hlength := length_writeLength_pos
  have hnatural : ∀ value, 0 < (writeNatural value).length := by
    intro value
    unfold writeNatural
    split_ifs <;> simp
  cases datum with
  | bool value => cases value <;> simp [write]
  | natural value => exact hnatural value
  | integer value =>
    cases value with
    | ofNat value => exact hnatural value
    | negSucc value => simp [write]
  | text value =>
    rw [write, writeText, List.length_append]
    exact Nat.add_pos_left (hlength ..) _
  | bytes value =>
    rw [write, List.length_append]
    exact Nat.add_pos_left (hlength ..) _
  | list items =>
    rw [write, List.length_append]
    exact Nat.add_pos_left (hlength ..) _
  | map entries =>
    rw [write, List.length_append]
    exact Nat.add_pos_left (hlength ..) _
  | _ => simp [write]

mutual

/-- A datum is read where as many lists and maps may be opened as it is nested. -/
theorem readValue?_write : ∀ (datum : Datum) (fuel room : Nat) (rest : List UInt8),
    IsKept datum → 2 * (write datum).length ≤ fuel →
    readValue? fuel room (write datum ++ rest) =
      if datum.nesting ≤ room then some (datum, rest) else none
  | datum, 0, _, _, _, hfuel => by
    have hpos := length_write_pos datum
    omega
  | .null, fuel + 1, room, rest, _, _ => by
    simp [write, readValue?, Datum.nesting]
  | .bool true, fuel + 1, room, rest, _, _ => by
    simp [write, readValue?, Datum.nesting]
  | .bool false, fuel + 1, room, rest, _, _ => by
    simp [write, readValue?, Datum.nesting]
  | .natural value, fuel + 1, room, rest, hkept, _ => by
    rw [write, readValue?_writeNatural fuel room rest hkept]
    simp [Datum.nesting]
  | .text value, fuel + 1, room, rest, hkept, _ => by
    rw [write, readValue?_writeText fuel room hkept]
    simp [Datum.nesting]
  | .list items, fuel + 1, room, rest, hkept, hfuel => by
    obtain ⟨hlength, hitems⟩ := hkept
    rw [write, List.append_assoc, readValue?_listHead fuel room _ hlength, Datum.nesting]
    have hhead := length_writeLength_pos 0x90 16 none 0xdc 0xdd items.length
    simp only [write, List.length_append] at hfuel
    cases room with
    | zero => rw [readList?, if_neg (by omega)]
    | succ inner =>
      have hread := readItems?_write items fuel inner rest hitems (by omega)
      simp only [readList?, hread]
      by_cases hinner : Datum.nestingAll items ≤ inner
      · rw [if_pos hinner, if_pos (by omega), Option.map_some]
      · rw [if_neg hinner, if_neg (by omega), Option.map_none]
  | .map entries, fuel + 1, room, rest, hkept, hfuel => by
    obtain ⟨hlength, hentries⟩ := hkept
    rw [write, List.append_assoc, readValue?_mapHead fuel room _ hlength, Datum.nesting]
    have hhead := length_writeLength_pos 0x80 16 none 0xde 0xdf entries.length
    simp only [write, List.length_append] at hfuel
    cases room with
    | zero => rw [readMap?, if_neg (by omega)]
    | succ inner =>
      have hread := readEntries?_write entries fuel inner rest hentries (by omega)
      simp only [readMap?, hread]
      by_cases hinner : Datum.nestingEntries entries ≤ inner
      · rw [if_pos hinner, if_pos (by omega), Option.map_some]
      · rw [if_neg hinner, if_neg (by omega), Option.map_none]

/-- A list is read back if none of its items nests deeper than there is room. -/
theorem readItems?_write : ∀ (items : List Datum) (fuel room : Nat) (rest : List UInt8),
    AreKept items → 2 * (writeItems items).length < fuel →
    readItems? fuel room items.length (writeItems items ++ rest) =
      if Datum.nestingAll items ≤ room then some (items, rest) else none
  | _, 0, _, _, _, hfuel => absurd hfuel (Nat.not_lt_zero _)
  | [], fuel + 1, room, rest, _, _ => by
    simp [writeItems, readItems?, Datum.nestingAll]
  | item :: items, fuel + 1, room, rest, hkept, hfuel => by
    have hpos := length_write_pos item
    simp only [writeItems, List.length_append] at hfuel
    have hitem := readValue?_write item fuel room (writeItems items ++ rest) hkept.1 (by omega)
    have hitems := readItems?_write items fuel room rest hkept.2 (by omega)
    rw [writeItems, List.append_assoc, List.length_cons, readItems?, hitem, Datum.nestingAll]
    simp only [Nat.max_le]
    by_cases hnested : item.nesting ≤ room
    · by_cases hall : Datum.nestingAll items ≤ room
      · simp [hnested, hall, hitems]
      · simp [hnested, hall, hitems]
    · simp [hnested]

/-- A map is read back if none of its entries nests deeper than there is room. -/
theorem readEntries?_write : ∀ (entries : List (Datum × Datum)) (fuel room : Nat)
    (rest : List UInt8), AreEntriesKept entries → 2 * (writeEntries entries).length < fuel →
    readEntries? fuel room entries.length (writeEntries entries ++ rest) =
      if Datum.nestingEntries entries ≤ room then some (entries, rest) else none
  | _, 0, _, _, _, hfuel => absurd hfuel (Nat.not_lt_zero _)
  | [], fuel + 1, room, rest, _, _ => by
    simp [writeEntries, readEntries?, Datum.nestingEntries]
  | (key, value) :: entries, fuel + 1, room, rest, hkept, hfuel => by
    have hpos := length_write_pos key
    simp only [writeEntries, List.length_append] at hfuel
    have hkey := readValue?_write key fuel room (write value ++ (writeEntries entries ++ rest))
      hkept.1 (by omega)
    have hvalue := readValue?_write value fuel room (writeEntries entries ++ rest) hkept.2.1
      (by omega)
    have hentries := readEntries?_write entries fuel room rest hkept.2.2 (by omega)
    rw [writeEntries, List.append_assoc, List.append_assoc, List.length_cons, readEntries?, hkey,
      Datum.nestingEntries]
    simp only [Nat.max_le]
    by_cases hnestedKey : key.nesting ≤ room
    · by_cases hnested : value.nesting ≤ room
      · by_cases hall : Datum.nestingEntries entries ≤ room
        · simp [hnestedKey, hnested, hall, hvalue, hentries]
        · simp [hnestedKey, hnested, hall, hvalue, hentries]
      · simp [hnestedKey, hnested, hvalue]
    · simp [hnestedKey]

end

/-- What the bytes keep is read back from them, if it is not nested too deeply. -/
theorem parse?_write {datum : Datum} (h : IsKept datum) :
    parse? (write datum) = if datum.nesting ≤ maxDepth then some datum else none := by
  have hread := readValue?_write datum (2 * (write datum).length + 2) maxDepth [] h (by omega)
  rw [List.append_nil] at hread
  rw [parse?, hread]
  split <;> rfl

end SymbolIndex.MessagePack
