import SymbolIndex.Proofs.SourceText.Lines

/-!
# The table of line starts

The bytes at which lines start, looked for once, tell the line of an offset and
the stretch of a line without walking over the text.  The looking up subtracts
and takes elements by their places.  All differences are there and all places
exist, whatever the offset, and a text of less than 2^32 bytes has only lines
and characters whose numbers fit in 32 bits.  So what is looked up is what the
walks give, and offsets between characters are told apart by their positions.
-/

namespace SymbolIndex.SourceText

open SymbolIndex.Text

variable {chars line rest : List Char}

/-! ## Looking up -/

/-- The bytes of a text in UTF-8. -/
def bytes (chars : List Char) : List UInt8 :=
  chars.flatMap String.utf8EncodeChar

/-- The offsets behind the bytes that are line ends. -/
def offsetsBehindEnds (bytes : List UInt8) : List Nat :=
  (bytes.zipIdx.filter fun (byte, _) => byte == 10).map fun (_, offset) => offset + 1

/-- The offsets at which the lines of a text start. -/
def lineStarts (chars : List Char) : List Nat :=
  0 :: offsetsBehindEnds (bytes chars)

/-- The text between two byte offsets, if both are boundaries in order. -/
def slice? (start stop : Nat) (chars : List Char) : Option (List Char) :=
  if start ≤ stop then (dropBytes? start chars).bind (takeBytes? (stop - start)) else none

/-- The difference of two numbers, if it is not negative. -/
def difference? (left right : Nat) : Option Nat :=
  if right ≤ left then some (left - right) else none

/-- The position of an offset by the starts of lines: on the last line that starts at it or before,
behind as many characters as stand between, or bytes if the offset is inside a character.  There
is none if some difference is negative or some place is beyond the starts. -/
def search? (starts : List Nat) (chars : List Char) (offset : Nat) : Option Position := do
  let number ← difference? (starts.findIdx fun start => decide (offset < start)) 1
  let start ← starts[number]?
  let character ← (slice? start offset chars).elim (difference? offset start) fun front =>
    some front.length
  some ⟨number, character⟩

/-- The position of an offset, one beyond the end being the end. -/
def lookUp? (chars : List Char) (offset : Nat) : Option Position :=
  search? (lineStarts chars) chars (min offset (byteLength chars))

/-- The position in 32-bit words. -/
def inWords (position : Position) : Position :=
  ⟨(UInt32.ofNat position.line).toNat, (UInt32.ofNat position.character).toNat⟩

/-- The offset of the character with a number between two offsets, else the second of them. -/
def offsetWithin (start stop character : Nat) (chars : List Char) : Nat :=
  let line := sliceChars start stop chars
  if character < line.length then start + byteLength (line.take character) else stop

/-- The offset of a position by the starts of lines: that of the character on its line, else the
start of the line below, else the end of the text. -/
def lookUpOffset (chars : List Char) (position : Position) : Nat :=
  ((lineStarts chars)[position.line]?).elim (byteLength chars) fun start =>
    let stop := ((lineStarts chars)[position.line + 1]?).getD (byteLength chars)
    offsetWithin start stop position.character chars

/-! ## The table line by line -/

theorem length_bytes (chars : List Char) : (bytes chars).length = byteLength chars := by
  induction chars with
  | nil => rfl
  | cons c chars ih =>
      rw [byteLength, ← ih, bytes, List.flatMap_cons, List.length_append,
        String.length_utf8EncodeChar]
      rfl

/-- A byte with the highest bit set is no line end. -/
theorem lineEnd_ne_or {byte mark : UInt8} (hmark : mark.toBitVec[7] = true) :
    (10 : UInt8) ≠ byte ||| mark := by
  intro heq
  have hbit := congrArg (fun byte : UInt8 => byte.toBitVec.getLsbD 7) heq
  simp [hmark] at hbit

/-- The byte of a line end is in no other character. -/
theorem lineEnd_not_mem_utf8EncodeChar {c : Char} (hend : '\n' ≠ c) :
    (10 : UInt8) ∉ String.utf8EncodeChar c := by
  match hsize : c.utf8Size, c.utf8Size_pos, c.utf8Size_le_four with
  | 1, _, _ =>
      rw [String.utf8EncodeChar_eq_singleton hsize, List.mem_singleton]
      intro heq
      apply hend
      rw [← Char.toNat_inj]
      have hsmall := UInt32.le_iff_toNat_le.1 (Char.utf8Size_eq_one_iff.1 hsize)
      have hbyte := congrArg UInt8.toNat heq
      rw [UInt32.toNat_toUInt8] at hbyte
      exact hbyte.trans (Nat.mod_eq_of_lt (Nat.lt_of_le_of_lt hsmall (by decide)))
  | 2, _, _ =>
      rw [String.utf8EncodeChar_eq_cons_cons hsize]
      simp only [List.mem_cons, List.not_mem_nil, or_false, not_or]
      exact ⟨lineEnd_ne_or rfl, lineEnd_ne_or rfl⟩
  | 3, _, _ =>
      rw [String.utf8EncodeChar_eq_cons_cons_cons hsize]
      simp only [List.mem_cons, List.not_mem_nil, or_false, not_or]
      exact ⟨lineEnd_ne_or rfl, lineEnd_ne_or rfl, lineEnd_ne_or rfl⟩
  | 4, _, _ =>
      rw [String.utf8EncodeChar_eq_cons_cons_cons_cons hsize]
      simp only [List.mem_cons, List.not_mem_nil, or_false, not_or]
      exact ⟨lineEnd_ne_or rfl, lineEnd_ne_or rfl, lineEnd_ne_or rfl, lineEnd_ne_or rfl⟩

/-- The line ends of two parts are those of the one, and those of the other farther on. -/
theorem offsetsBehindEnds_append (front back : List UInt8) :
    offsetsBehindEnds (front ++ back) =
      offsetsBehindEnds front ++ (offsetsBehindEnds back).map (· + front.length) := by
  rw [offsetsBehindEnds, List.zipIdx_append, List.filter_append, List.map_append,
    List.zipIdx_eq_map_add (l := back), List.filter_map, List.map_map, offsetsBehindEnds,
    offsetsBehindEnds, List.map_map]
  congr 1
  apply List.map_congr_left
  intro entry hentry
  simp only [Function.comp_apply]
  omega

theorem offsetsBehindEnds_line (hline : '\n' ∉ line) : offsetsBehindEnds (bytes line) = [] := by
  have hbytes : (10 : UInt8) ∉ bytes line := by
    rw [bytes, List.mem_flatMap]
    rintro ⟨c, hc, hbyte⟩
    exact lineEnd_not_mem_utf8EncodeChar (fun heq => hline (heq ▸ hc)) hbyte
  rw [offsetsBehindEnds, List.map_eq_nil_iff, List.filter_eq_nil_iff]
  rintro ⟨byte, offset⟩ hentry hend
  exact hbytes (beq_iff_eq.1 hend ▸ (List.mem_zipIdx' hentry).2 ▸ List.getElem_mem _)

theorem lineStarts_line (hline : '\n' ∉ line) : lineStarts line = [0] := by
  rw [lineStarts, offsetsBehindEnds_line hline]

/-- The first line starts at zero, and the others as far on as the first one is long. -/
theorem lineStarts_line_cons (hline : '\n' ∉ line) (rest : List Char) :
    lineStarts (line ++ '\n' :: rest) =
      0 :: (lineStarts rest).map (· + (byteLength line + 1)) := by
  have hbytes : bytes (line ++ '\n' :: rest) = bytes line ++ ([10] ++ bytes rest) := by
    rw [bytes, List.flatMap_append, List.flatMap_cons]
    rfl
  have hend : offsetsBehindEnds [10] = [1] := rfl
  rw [lineStarts, hbytes, offsetsBehindEnds_append, offsetsBehindEnds_append,
    offsetsBehindEnds_line hline, hend, length_bytes, lineStarts]
  have hshift : (· + byteLength line) ∘ (· + 1) = (· + (byteLength line + 1)) := by
    funext offset
    simp only [Function.comp_apply]
    omega
  have hfirst : 1 + byteLength line = 0 + (byteLength line + 1) := by omega
  rw [List.nil_append, List.map_append, List.map_map, List.length_singleton, hshift,
    List.map_singleton, hfirst, List.singleton_append, List.map_cons]

/-- A search by halving needs the starts in order. -/
theorem lineStarts_increasing (chars : List Char) : (lineStarts chars).Pairwise (· < ·) := by
  induction chars using line_induction with
  | hlast line hline =>
      rw [lineStarts_line hline]
      exact List.pairwise_singleton _ _
  | hmore line rest hline ih =>
      rw [lineStarts_line_cons hline, List.pairwise_cons, List.pairwise_map]
      constructor
      · intro start hstart
        obtain ⟨above, -, rfl⟩ := List.mem_map.1 hstart
        omega
      · exact ih.imp fun hlt => Nat.add_lt_add_right hlt _

theorem slice?_zero {stop : Nat} (chars : List Char) :
    slice? 0 stop chars = takeBytes? stop chars := by
  rw [slice?, if_pos (Nat.zero_le stop), dropBytes?, Option.bind_some, Nat.sub_zero]

/-- Behind the first line a slice is one of the rest. -/
theorem slice?_below (line rest : List Char) (start stop : Nat) :
    slice? (start + (byteLength line + 1)) (stop + (byteLength line + 1)) (line ++ '\n' :: rest) =
      slice? start stop rest := by
  have hdrop := dropBytes?_append (line ++ ['\n']) rest start
  rw [List.append_assoc, List.singleton_append, byteLength_line_end, Nat.add_comm] at hdrop
  rw [slice?, slice?, hdrop, Nat.add_sub_add_right]
  simp only [Nat.add_le_add_iff_right]

theorem sliceChars_eq (start stop : Nat) (chars : List Char) :
    sliceChars start stop chars = (slice? start stop chars).getD [] := by
  rw [sliceChars, slice?]
  split
  · rfl
  · rfl

/-! ## What is looked up -/

/-- On the first line the position is looked up as the walk finds it. -/
theorem search?_on_line {starts : List Nat} {offset : Nat} (hline : '\n' ∉ line)
    (back : List Char) (hbelow : ∀ start ∈ starts, byteLength line < start)
    (hle : offset ≤ byteLength line) :
    search? (0 :: starts) (line ++ back) offset =
      some (positionFrom ⟨0, 0⟩ 0 offset (line ++ back)) := by
  have hfirst : starts.findIdx (fun start => decide (offset < start)) = 0 := by
    cases starts with
    | nil => rfl
    | cons start starts =>
        have hlt := hbelow start List.mem_cons_self
        rw [List.findIdx_cons, decide_eq_true (by omega)]
        rfl
  have hnumber : (0 :: starts).findIdx (fun start => decide (offset < start)) = 1 := by
    rw [List.findIdx_cons, decide_eq_false (Nat.not_lt_zero offset), hfirst]
    rfl
  have hdifference : difference? 1 1 = some 0 := rfl
  rw [search?, hnumber, hdifference, positionFrom_on_line hline back ⟨0, 0⟩ 0 hle]
  simp only [Option.bind_eq_bind, Option.bind_some, List.getElem?_cons_zero]
  rw [slice?_zero, takeBytes?_append_of_le hle]
  cases takeBytes? offset line with
  | none => simp [difference?]
  | some front => simp

/-- Below the first line the position is looked up in the text below. -/
theorem search?_below (starts : List Nat) (line rest : List Char) (offset : Nat) :
    search? (0 :: (0 :: starts).map (· + (byteLength line + 1))) (line ++ '\n' :: rest)
      (offset + (byteLength line + 1)) = (search? (0 :: starts) rest offset).map down := by
  have hfirst : (0 :: starts).findIdx (fun start => decide (offset < start)) =
      starts.findIdx (fun start => decide (offset < start)) + 1 := by
    rw [List.findIdx_cons, decide_eq_false (Nat.not_lt_zero offset)]
    rfl
  have hnumber : (0 :: (0 :: starts).map (· + (byteLength line + 1))).findIdx
      (fun start => decide (offset + (byteLength line + 1) < start)) =
        starts.findIdx (fun start => decide (offset < start)) + 2 := by
    have hshift : (fun start => decide (offset + (byteLength line + 1) < start)) ∘
        (· + (byteLength line + 1)) = fun start => decide (offset < start) := by
      funext start
      simp only [Function.comp_apply, Nat.add_lt_add_iff_right]
    rw [List.findIdx_cons, decide_eq_false (Nat.not_lt_zero _), List.findIdx_map, hshift, hfirst]
    rfl
  generalize starts.findIdx (fun start => decide (offset < start)) = number at hfirst hnumber
  have hdifference : ∀ number, difference? (number + 1) 1 = some number := by
    intro number
    rw [difference?, if_pos (Nat.le_add_left 1 number), Nat.add_sub_cancel]
  rw [search?, search?, hfirst, hnumber, hdifference, hdifference]
  simp only [Option.bind_eq_bind, Option.bind_some, List.getElem?_cons_succ, List.getElem?_map]
  cases (0 :: starts)[number]? with
  | none => rfl
  | some start =>
      simp only [Option.map_some, Option.bind_some]
      rw [slice?_below, difference?, difference?, Nat.add_sub_add_right]
      simp only [Nat.add_le_add_iff_right]
      cases slice? start offset rest with
      | some front => rfl
      | none =>
          dsimp only [Option.elim]
          split
          · rfl
          · rfl

/-- Looking up gives for every offset what the walk gives. -/
theorem lookUp?_eq (chars : List Char) (offset : Nat) :
    lookUp? chars offset = some (positionFrom ⟨0, 0⟩ 0 offset chars) := by
  have hwithin : ∀ offset ≤ byteLength chars,
      search? (lineStarts chars) chars offset = some (positionFrom ⟨0, 0⟩ 0 offset chars) := by
    induction chars using line_induction with
    | hlast line hline =>
        intro offset hle
        have hsearch := search?_on_line hline [] (List.forall_mem_nil _) hle
        rw [List.append_nil] at hsearch
        rw [lineStarts_line hline, hsearch]
    | hmore line rest hline ih =>
        intro offset hle
        rw [byteLength_line] at hle
        rw [lineStarts_line_cons hline]
        rcases Nat.lt_or_ge (byteLength line) offset with hbelow | hon
        · obtain ⟨more, rfl⟩ := Nat.exists_eq_add_of_le' hbelow
          have hwalk := positionFrom_below_start hline rest more
          rw [Nat.add_comm] at hwalk
          rw [hwalk, lineStarts, search?_below, ← lineStarts, ih more (by omega), Option.map_some]
        · refine search?_on_line hline _ ?_ hon
          intro start hstart
          obtain ⟨above, -, rfl⟩ := List.mem_map.1 hstart
          omega
  rw [lookUp?, hwithin _ (Nat.min_le_right _ _)]
  rcases Nat.le_total offset (byteLength chars) with hle | hge
  · rw [Nat.min_eq_left hle]
  · rw [Nat.min_eq_right hge, positionFrom_of_le hge]

theorem offsetWithin_zero {stop : Nat} (hwhole : takeBytes? stop chars = some line)
    (hstop : byteLength line = stop) (character : Nat) :
    offsetWithin 0 stop character chars = byteLength (line.take character) := by
  rw [offsetWithin, sliceChars_eq, slice?_zero, hwhole, Option.getD_some, Nat.zero_add]
  split
  · rfl
  · rename_i hge
    rw [List.take_of_length_le (Nat.le_of_not_lt hge), hstop]

/-- Behind the first line an offset is one of the rest, farther on. -/
theorem offsetWithin_below (line rest : List Char) (start stop character : Nat) :
    offsetWithin (start + (byteLength line + 1)) (stop + (byteLength line + 1)) character
      (line ++ '\n' :: rest) = byteLength line + 1 + offsetWithin start stop character rest := by
  rw [offsetWithin, offsetWithin, sliceChars_eq, sliceChars_eq, slice?_below]
  split
  · omega
  · omega

/-- Looking up gives for every position what the walk gives. -/
theorem lookUpOffset_eq (chars : List Char) (position : Position) :
    lookUpOffset chars position = bytesTo position.line position.character chars := by
  obtain ⟨number, character⟩ := position
  induction chars using line_induction generalizing number with
  | hlast line hline =>
      rw [lookUpOffset, lineStarts_line hline]
      cases number with
      | zero =>
          have hwhole : takeBytes? (byteLength line) line = some line := by
            simpa using takeBytes?_append line []
          rw [bytesTo, bytesToCharacter_line hline]
          exact offsetWithin_zero hwhole rfl character
      | succ number =>
          rw [bytesTo_succ_line hline]
          rfl
  | hmore line rest hline ih =>
      rw [lookUpOffset, lineStarts_line_cons hline]
      cases number with
      | zero =>
          have hend : byteLength (line ++ ['\n']) = 0 + (byteLength line + 1) := by
            rw [byteLength_line_end, Nat.zero_add]
          have hfirst := takeBytes?_append (line ++ ['\n']) rest
          rw [List.append_assoc, List.singleton_append, hend] at hfirst
          rw [bytesTo, bytesToCharacter_line_cons hline]
          exact offsetWithin_zero hfirst hend character
      | succ number =>
          have hlength : byteLength (line ++ '\n' :: rest) =
              byteLength rest + (byteLength line + 1) := by
            rw [byteLength_line]
            omega
          rw [bytesTo_below hline, ← ih number, lookUpOffset, hlength]
          simp only [List.getElem?_cons_succ, List.getElem?_map]
          cases (lineStarts rest)[number]? with
          | none => exact Nat.add_comm _ _
          | some start =>
              rw [Option.getD_map (· + (byteLength line + 1))]
              exact offsetWithin_below line rest start _ character

/-! ## Words -/

/-- The walk goes on by at most one line and one character for every byte. -/
theorem positionFrom_le (chars : List Char) (position : Position) (width offset : Nat)
    (hwidth : position.character ≤ width) :
    (positionFrom position width offset chars).line ≤ position.line + byteLength chars ∧
      (positionFrom position width offset chars).character ≤ width + byteLength chars := by
  induction chars generalizing position width offset with
  | nil =>
      rw [positionFrom]
      exact ⟨Nat.le_add_right _ _, Nat.le_trans hwidth (Nat.le_add_right _ _)⟩
  | cons c rest ih =>
      cases offset with
      | zero =>
          rw [positionFrom_zero]
          exact ⟨Nat.le_add_right _ _, Nat.le_trans hwidth (Nat.le_add_right _ _)⟩
      | succ offset =>
          have hsize := c.utf8Size_pos
          rw [positionFrom_cons, byteLength]
          split
          · dsimp only
            omega
          · have hline : (behind position c).line ≤ position.line + c.utf8Size := by
              rw [behind]
              split
              · exact Nat.add_le_add_left hsize _
              · exact Nat.le_add_right _ _
            have hbehind : widthBehind width c ≤ width + c.utf8Size := by
              rw [widthBehind]
              split
              · exact Nat.zero_le _
              · exact Nat.le_refl _
            obtain ⟨hbelow, hright⟩ := ih (behind position c) (widthBehind width c)
              (offset + 1 - c.utf8Size) (character_behind_le c hwidth)
            omega

theorem inWords_eq {position : Position} (hline : position.line < UInt32.size)
    (hcharacter : position.character < UInt32.size) : inWords position = position := by
  rw [inWords, UInt32.toNat_ofNat_of_lt' hline, UInt32.toNat_ofNat_of_lt' hcharacter]

theorem inWords_positionAt {text : String} (hsize : byteLength text.toList < UInt32.size)
    (offset : Nat) : inWords (positionAt text offset) = positionAt text offset := by
  obtain ⟨hline, hcharacter⟩ := positionFrom_le text.toList ⟨0, 0⟩ 0 offset (Nat.le_refl 0)
  rw [Nat.zero_add] at hline hcharacter
  exact inWords_eq (Nat.lt_of_le_of_lt hline hsize) (Nat.lt_of_le_of_lt hcharacter hsize)

/-- In a text of less than 2^32 bytes, offsets between characters have positions in the same
order and are read back from them, and offsets beyond the end are the end.  Looking a position or
an offset up by the starts of lines, which increase, gives the same, in 32-bit words and for
every offset: no difference is negative and no place is beyond the table. -/
theorem positionAt_lt_and_offsetAt_eq {text : String}
    (hsize : byteLength text.toList < UInt32.size) :
    (∀ first second, isBoundary text first = true → isBoundary text second = true →
      first < second → positionAt text first < positionAt text second) ∧
    (∀ offset, isBoundary text offset = true → offsetAt text (positionAt text offset) = offset) ∧
    (∀ offset, byteLength text.toList ≤ offset →
      positionAt text offset = positionAt text (byteLength text.toList)) ∧
    (lineStarts text.toList).Pairwise (· < ·) ∧
    (∀ offset, (lookUp? text.toList offset).map inWords = some (positionAt text offset)) ∧
    ∀ position, lookUpOffset text.toList position = offsetAt text position := by
  refine ⟨?_, ?_, ?_, lineStarts_increasing _, ?_, lookUpOffset_eq _⟩
  · intro first second hfirst hsecond hlt
    exact positionAt_lt hfirst hsecond hlt
  · intro offset hboundary
    exact offsetAt_positionAt hboundary
  · intro offset hle
    exact positionAt_of_le hle
  · intro offset
    have hlookUp := lookUp?_eq text.toList offset
    rw [hlookUp, Option.map_some]
    exact congrArg some (inWords_positionAt hsize offset)

/-- Both kinds of line ends, characters of two and four bytes, and no line end at the end. -/
theorem positionAt_lt_and_offsetAt_eq_mixed :
    let text := "é\r\n\n😀x"
    byteLength text.toList < UInt32.size ∧
      isBoundary text 5 = true ∧ isBoundary text 9 = true ∧ 5 < 9 ∧ byteLength text.toList ≤ 12 ∧
      positionAt text 5 < positionAt text 9 ∧ offsetAt text (positionAt text 9) = 9 ∧
      positionAt text 12 = positionAt text (byteLength text.toList) ∧
      (lookUp? text.toList 7).map inWords = some (positionAt text 7) := by
  intro text
  have hsize : byteLength text.toList < UInt32.size := by decide
  have hfirst : isBoundary text 5 = true := by decide
  have hsecond : isBoundary text 9 = true := by decide
  have hend : byteLength text.toList ≤ 12 := by decide
  obtain ⟨hlt, hback, hbeyond, -, hlookUp, -⟩ := positionAt_lt_and_offsetAt_eq hsize
  exact ⟨hsize, hfirst, hsecond, by decide, hend, hlt 5 9 hfirst hsecond (by decide),
    hback 9 hsecond, hbeyond 12 hend, hlookUp 7⟩

end SymbolIndex.SourceText
