import Mathlib.Order.Bounds.Basic
import SymbolIndex.Proofs.SourceText.Lines
import SymbolIndex.Proofs.Text.Occurrences
import SymbolIndex.Proofs.Tree.Parts
import SymbolIndex.Tree.Layout

/-!
# Words laid over a text

The search for words keeps the text that is left behind its offset, so the offset stays between
characters.  A step either finds the leftmost occurrence of its word from there on and goes behind
it, or gives an empty token and stays.  So the tokens of any requests stand in order on whole
characters of the text, and a request that gave an empty token can be left out.
-/

namespace SymbolIndex

open SymbolIndex.Text

/-! ## Occurrences -/

namespace SourceText

/-- The offsets of the text, from one on, at which a word stands. -/
def occurrences (text word : String) (reached : Nat) : Set Nat :=
  {offset | reached ≤ offset ∧ slice text offset (offset + byteLength word.toList) = word}

/-- Of two fronts of a text the one with fewer bytes is a front of the other. -/
theorem eq_append_of_byteLength_le {front back front' back' : List Char}
    (hsame : front ++ back = front' ++ back') (hle : byteLength front ≤ byteLength front') :
    ∃ between, front' = front ++ between ∧ back = between ++ back' := by
  rcases List.append_eq_append_iff.1 hsame with hshorter | ⟨between, rfl, rfl⟩
  · exact hshorter
  · rw [byteLength_append] at hle
    have hnone := length_le_byteLength between
    obtain rfl : between = [] := List.length_eq_zero_iff.1 (by omega)
    exact ⟨[], by simp, rfl⟩

/-- A word is cut out at an offset if it stands there. -/
theorem slice_eq_iff {text word : String} {offset : Nat} (hword : word ≠ "") :
    slice text offset (offset + byteLength word.toList) = word ↔
      ∃ front back, text.toList = front ++ (word.toList ++ back) ∧ byteLength front = offset := by
  rw [slice, sliceChars, if_pos (Nat.le_add_right _ _), Nat.add_sub_cancel_left,
    ← String.toList_inj, String.toList_ofList]
  constructor
  · intro hslice
    have hsome : word.toList ≠ [] := mt String.toList_eq_nil_iff.1 hword
    cases htaken : (dropBytes? offset text.toList).bind (takeBytes? (byteLength word.toList)) with
    | none =>
        rw [htaken] at hslice
        exact absurd hslice.symm hsome
    | some taken =>
        obtain rfl : taken = word.toList := by rwa [htaken] at hslice
        obtain ⟨rest, hdrop, htake⟩ := Option.bind_eq_some_iff.1 htaken
        obtain ⟨front, htext, hfront⟩ := dropBytes?_eq_some_iff.1 hdrop
        obtain ⟨back, rfl, -⟩ := takeBytes?_eq_some_iff.1 htake
        exact ⟨front, back, htext, hfront⟩
  · rintro ⟨front, back, htext, hfront⟩
    rw [dropBytes?_eq_some_iff.2 ⟨front, htext, hfront⟩, Option.bind_some, takeBytes?_append,
      Option.getD_some]

theorem isBoundary_of_mem_occurrences {text word : String} {reached offset : Nat}
    (hword : word ≠ "") (hmem : offset ∈ occurrences text word reached) :
    isBoundary text offset = true := by
  obtain ⟨front, back, htext, hfront⟩ := (slice_eq_iff hword).1 hmem.2
  exact isBoundary_iff.2 ⟨front, _, htext, hfront⟩

end SourceText

namespace Layout

open SourceText

variable {text word : String} {layout : Layout}

/-! ## One request -/

/-- The search stands in a text: what is left is the text from the offset on. -/
def Stands (layout : Layout) (text : String) : Prop :=
  dropBytes? layout.cursor text.toList = some layout.rest

theorem stands_ofText (text : String) : (ofText text).Stands text := by
  rw [Stands, ofText, dropBytes?]

namespace Stands

variable (hstands : layout.Stands text)
include hstands

theorem isBoundary : SourceText.isBoundary text layout.cursor = true := by
  rw [SourceText.isBoundary, hstands]
  rfl

theorem cursor_le : layout.cursor ≤ byteLength text.toList := by
  obtain ⟨front, htext, hfront⟩ := dropBytes?_eq_some_iff.1 hstands
  rw [htext, byteLength_append, hfront]
  exact Nat.le_add_right _ _

/-- The occurrences from the offset on are those in what is left. -/
theorem mem_occurrences_iff (hword : word ≠ "") {offset : Nat} :
    offset ∈ occurrences text word layout.cursor ↔
      ∃ front back, layout.rest = front ++ (word.toList ++ back) ∧
        offset = layout.cursor + byteLength front := by
  obtain ⟨passed, htext, hpassed⟩ := dropBytes?_eq_some_iff.1 hstands
  rw [occurrences, Set.mem_ofPred_eq, slice_eq_iff hword]
  constructor
  · rintro ⟨hle, whole, back, hwhole, rfl⟩
    rw [htext] at hwhole
    obtain ⟨front, rfl, hrest⟩ := eq_append_of_byteLength_le hwhole (hpassed.trans_le hle)
    exact ⟨front, back, hrest, by rw [byteLength_append, hpassed]⟩
  · rintro ⟨front, back, hrest, rfl⟩
    refine ⟨Nat.le_add_right _ _, passed ++ front, back, ?_, ?_⟩
    · rw [htext, hrest, List.append_assoc]
    · rw [byteLength_append, hpassed]

/-- The search goes on behind characters that are left. -/
theorem behind {skipped found back : List Char} (hrest : layout.rest = skipped ++ (found ++ back)) :
    Stands ⟨layout.cursor + byteLength skipped + byteLength found,
      layout.rest.drop (skipped.length + found.length)⟩ text := by
  obtain ⟨passed, htext, hpassed⟩ := dropBytes?_eq_some_iff.1 hstands
  refine dropBytes?_eq_some_iff.2 ⟨passed ++ (skipped ++ found), ?_, ?_⟩
  · have hback : layout.rest.drop (skipped.length + found.length) = back := by
      rw [hrest, ← List.append_assoc, ← List.length_append, List.drop_left]
    rw [hback, htext, hrest]
    simp only [List.append_assoc]
  · rw [byteLength_append, byteLength_append, hpassed, Nat.add_assoc]

/-- What is found first in what is left is the leftmost occurrence from the offset on. -/
theorem isLeast {skipped : List Char} (hword : word ≠ "")
    (hfound : before? word.toList layout.rest = some skipped) :
    IsLeast (occurrences text word layout.cursor) (layout.cursor + byteLength skipped) := by
  obtain ⟨back, hrest⟩ := exists_eq_of_before? hfound
  refine ⟨(hstands.mem_occurrences_iff hword).2 ⟨skipped, back, hrest, rfl⟩, ?_⟩
  intro offset hmem
  obtain ⟨front, back, hother, rfl⟩ := (hstands.mem_occurrences_iff hword).1 hmem
  exact Nat.add_le_add_left (byteLength_le_of_isPrefix (isPrefix_of_before? hfound hother)) _

theorem occurrences_eq_empty (hword : word ≠ "")
    (hnone : before? word.toList layout.rest = none) :
    occurrences text word layout.cursor = ∅ := by
  refine Set.eq_empty_of_forall_notMem fun offset hmem => ?_
  obtain ⟨front, back, hrest, -⟩ := (hstands.mem_occurrences_iff hword).1 hmem
  exact before?_eq_none_iff.1 hnone ⟨front, back, by rw [hrest, List.append_assoc]⟩

end Stands

/-- What a request gives for a word, and where the search stands behind it. -/
inductive Answer (text word : String) (layout : Layout) (token : Token) (next : Layout) : Prop
  | found (hword : word ≠ "")
      (hleast : IsLeast (occurrences text word layout.cursor) token.start)
      (hstop : token.stop = token.start + byteLength word.toList) (hstands : next.Stands text)
      (hcursor : next.cursor = token.stop)
  | missing (hnone : word = "" ∨ occurrences text word layout.cursor = ∅)
      (hstart : token.start = layout.cursor) (hstop : token.stop = layout.cursor)
      (hsame : next = layout)

/-- One request keeps the search in the text, if its offsets fit into 32 bits. -/
theorem Stands.placeToken (hsize : byteLength text.toList < UInt32.size)
    (hstands : layout.Stands text) (kind : TokenKind) (word : String) :
    Answer text word layout (layout.placeToken kind word).1 (layout.placeToken kind word).2 := by
  have hmissing : (word = "" ∨ occurrences text word layout.cursor = ∅) →
      Answer text word layout ⟨kind, UInt32.ofNat layout.cursor, UInt32.ofNat 0⟩ layout := by
    intro hnone
    have hcursor : (UInt32.ofNat layout.cursor).toNat = layout.cursor :=
      UInt32.toNat_ofNat_of_lt' (Nat.lt_of_le_of_lt hstands.cursor_le hsize)
    have hstop : (UInt32.ofNat layout.cursor + UInt32.ofNat 0).toNat = layout.cursor :=
      (congrArg UInt32.toNat (UInt32.add_zero _)).trans hcursor
    exact .missing hnone hcursor hstop rfl
  rw [Layout.placeToken, place]
  by_cases hempty : word.toList.isEmpty = true
  · rw [if_pos hempty]
    exact hmissing (Or.inl (String.toList_eq_nil_iff.1 (List.isEmpty_iff.1 hempty)))
  · have hword : word ≠ "" := by
      rintro rfl
      exact hempty rfl
    rw [if_neg hempty]
    cases hfound : before? word.toList layout.rest with
    | none => exact hmissing (Or.inr (hstands.occurrences_eq_empty hword hfound))
    | some skipped =>
        obtain ⟨back, hrest⟩ := exists_eq_of_before? hfound
        have hnext := hstands.behind hrest
        have hfits := Nat.lt_of_le_of_lt hnext.cursor_le hsize
        have hstart : (UInt32.ofNat (layout.cursor + byteLength skipped)).toNat =
            layout.cursor + byteLength skipped :=
          UInt32.toNat_ofNat_of_lt' (Nat.lt_of_le_of_lt (Nat.le_add_right _ _) hfits)
        have hlength : (UInt32.ofNat (byteLength word.toList)).toNat = byteLength word.toList :=
          UInt32.toNat_ofNat_of_lt' (Nat.lt_of_le_of_lt (Nat.le_add_left _ _) hfits)
        -- The sum does not wrap around.
        have hstop : (UInt32.ofNat (layout.cursor + byteLength skipped) +
            UInt32.ofNat (byteLength word.toList)).toNat =
              layout.cursor + byteLength skipped + byteLength word.toList := by
          rw [UInt32.toNat_add, hstart, hlength, Nat.mod_eq_of_lt hfits]
        refine .found hword ?_ ?_ hnext hstop.symm
        · rw [Token.start, hstart]
          exact hstands.isLeast hword hfound
        · rw [Token.stop, Token.start, hstop, hstart]

theorem byteLength_pos (hword : word ≠ "") : 0 < byteLength word.toList :=
  Nat.lt_of_lt_of_le (List.length_pos_of_ne_nil (mt String.toList_eq_nil_iff.1 hword))
    (length_le_byteLength word.toList)

namespace Answer

variable {token : Token} {next : Layout} (hanswer : Answer text word layout token next)
include hanswer

theorem cursor : next.cursor = token.stop := by
  cases hanswer with
  | found _ _ _ _ hcursor => exact hcursor
  | missing _ _ hstop hsame => rw [hsame, hstop]

theorem stands (hstands : layout.Stands text) : next.Stands text := by
  cases hanswer with
  | found _ _ _ hnext _ => exact hnext
  | missing _ _ _ hsame => exact hsame ▸ hstands

theorem cursor_le_start : layout.cursor ≤ token.start := by
  cases hanswer with
  | found _ hleast _ _ _ => exact hleast.1.1
  | missing _ hstart _ _ => exact hstart.ge

theorem start_le_stop : token.start ≤ token.stop := by
  cases hanswer with
  | found _ _ hstop _ _ => exact hstop ▸ Nat.le_add_right _ _
  | missing _ hstart hstop _ => exact (hstart.trans hstop.symm).le

theorem isBoundary_start (hstands : layout.Stands text) : isBoundary text token.start = true := by
  cases hanswer with
  | found hword hleast _ _ _ => exact isBoundary_of_mem_occurrences hword hleast.1
  | missing _ hstart _ _ => exact hstart ▸ hstands.isBoundary

/-- A token is the leftmost occurrence of its word, or it is empty and stands where the search
does. -/
theorem leftmost_or_empty :
    word ≠ "" ∧ IsLeast (occurrences text word layout.cursor) token.start ∧
        token.stop = token.start + byteLength word.toList ∨
      token.start = layout.cursor ∧ token.stop = layout.cursor := by
  cases hanswer with
  | found hword hleast hstop _ _ => exact Or.inl ⟨hword, hleast, hstop⟩
  | missing _ hstart hstop _ => exact Or.inr ⟨hstart, hstop⟩

/-- The token is empty, where the search stood, exactly if there is nothing to find. -/
theorem empty_iff :
    token.start = layout.cursor ∧ token.stop = layout.cursor ↔
      word = "" ∨ occurrences text word layout.cursor = ∅ := by
  cases hanswer with
  | found hword hleast hstop _ _ =>
      have hsome := byteLength_pos hword
      refine iff_of_false (fun hempty => ?_) ?_
      · omega
      · rintro (hempty | hempty)
        · exact hword hempty
        · exact hleast.nonempty.ne_empty hempty
  | missing hnone hstart hstop _ => exact iff_of_true ⟨hstart, hstop⟩ hnone

/-- Behind an empty token the search stands where it stood. -/
theorem next_eq (hempty : token.start = token.stop) : next = layout := by
  cases hanswer with
  | found hword _ hstop _ _ =>
      have hsome := byteLength_pos hword
      omega
  | missing _ _ _ hsame => exact hsame

end Answer

/-! ## Many requests -/

/-- The tokens that requests are given, one after the other. -/
def tokens (layout : Layout) (requests : List (TokenKind × String)) : List Token :=
  Tree.tokensAll
    (Draft.layOutAll layout (requests.map fun request => .word request.1 request.2)).1

/-- Where the search stands behind requests. -/
def after (layout : Layout) (requests : List (TokenKind × String)) : Layout :=
  (Draft.layOutAll layout (requests.map fun request => .word request.1 request.2)).2

theorem tokens_nil (layout : Layout) : layout.tokens [] = [] :=
  rfl

theorem after_nil (layout : Layout) : layout.after [] = layout :=
  rfl

theorem tokens_cons (layout : Layout) (kind : TokenKind) (word : String)
    (rest : List (TokenKind × String)) :
    layout.tokens ((kind, word) :: rest) =
      (layout.placeToken kind word).1 :: (layout.placeToken kind word).2.tokens rest :=
  rfl

theorem after_cons (layout : Layout) (kind : TokenKind) (word : String)
    (rest : List (TokenKind × String)) :
    layout.after ((kind, word) :: rest) = (layout.placeToken kind word).2.after rest :=
  rfl

variable {requests : List (TokenKind × String)}

theorem after_append (layout : Layout) (earlier later : List (TokenKind × String)) :
    layout.after (earlier ++ later) = (layout.after earlier).after later := by
  induction earlier generalizing layout with
  | nil => rfl
  | cons request rest ih => exact ih (layout.placeToken request.1 request.2).2

/-- Later requests go on where the earlier ones have come. -/
theorem tokens_append (layout : Layout) (earlier later : List (TokenKind × String)) :
    layout.tokens (earlier ++ later) =
      layout.tokens earlier ++ (layout.after earlier).tokens later := by
  induction earlier generalizing layout with
  | nil => rfl
  | cons request rest ih =>
      rw [List.cons_append, tokens_cons, tokens_cons, ih, after_cons, List.cons_append]

theorem map_kind_tokens (layout : Layout) (requests : List (TokenKind × String)) :
    (layout.tokens requests).map (·.kind) = requests.map (·.1) := by
  induction requests generalizing layout with
  | nil => rfl
  | cons request rest ih =>
      rw [tokens_cons, List.map_cons, List.map_cons, ih]
      rfl

/-- A token is the answer to some request, behind the ones before. -/
theorem exists_request_of_mem_tokens {token : Token} (hmem : token ∈ layout.tokens requests) :
    ∃ earlier kind word later, requests = earlier ++ (kind, word) :: later ∧
      token = ((layout.after earlier).placeToken kind word).1 := by
  induction requests generalizing layout with
  | nil => cases hmem
  | cons request rest ih =>
      rw [tokens_cons, List.mem_cons] at hmem
      rcases hmem with rfl | hmem
      · exact ⟨[], request.1, request.2, rest, rfl, rfl⟩
      · obtain ⟨earlier, kind, word, later, rfl, rfl⟩ := ih hmem
        exact ⟨request :: earlier, kind, word, later, rfl, rfl⟩

section

variable (hsize : byteLength text.toList < UInt32.size)
include hsize

/-- Any requests keep the search in the text. -/
theorem Stands.after (hstands : layout.Stands text) (requests : List (TokenKind × String)) :
    (layout.after requests).Stands text := by
  induction requests generalizing layout with
  | nil => exact hstands
  | cons request rest ih =>
      exact ih ((hstands.placeToken hsize request.1 request.2).stands hstands)

/-- No token starts before the search stood. -/
theorem Stands.cursor_le_start (hstands : layout.Stands text) {token : Token}
    (hmem : token ∈ layout.tokens requests) : layout.cursor ≤ token.start := by
  induction requests generalizing layout with
  | nil => cases hmem
  | cons request rest ih =>
      have hanswer := hstands.placeToken hsize request.1 request.2
      rw [tokens_cons, List.mem_cons] at hmem
      rcases hmem with rfl | hmem
      · exact hanswer.cursor_le_start
      · calc layout.cursor
          _ ≤ (layout.placeToken request.1 request.2).1.start := hanswer.cursor_le_start
          _ ≤ (layout.placeToken request.1 request.2).1.stop := hanswer.start_le_stop
          _ = (layout.placeToken request.1 request.2).2.cursor := hanswer.cursor.symm
          _ ≤ token.start := ih (hanswer.stands hstands) hmem

/-- Tokens follow each other in the order of the requests. -/
theorem Stands.tokens_ordered (hstands : layout.Stands text)
    (requests : List (TokenKind × String)) :
    (layout.tokens requests).Pairwise fun earlier later => earlier.stop ≤ later.start := by
  induction requests generalizing layout with
  | nil => exact List.Pairwise.nil
  | cons request rest ih =>
      have hanswer := hstands.placeToken hsize request.1 request.2
      have hnext := hanswer.stands hstands
      refine List.pairwise_cons.2 ⟨fun token hmem => ?_, ih hnext⟩
      exact hanswer.cursor ▸ hnext.cursor_le_start hsize hmem

/-- Tokens hold whole characters, and none goes beyond the end. -/
theorem Stands.isBoundary_of_mem_tokens (hstands : layout.Stands text) {token : Token}
    (hmem : token ∈ layout.tokens requests) :
    SourceText.isBoundary text token.start = true ∧
      SourceText.isBoundary text token.stop = true ∧ token.stop ≤ byteLength text.toList := by
  obtain ⟨earlier, kind, word, later, -, rfl⟩ := exists_request_of_mem_tokens hmem
  have hbefore := hstands.after hsize earlier
  have hanswer := hbefore.placeToken hsize kind word
  have hbehind := hanswer.stands hbefore
  rw [← hanswer.cursor]
  exact ⟨hanswer.isBoundary_start hbefore, hbehind.isBoundary, hbehind.cursor_le⟩

end

/-! ## Requests over a text -/

/-- The tokens that requests are given over a text. -/
def requested (text : String) (requests : List (TokenKind × String)) : List Token :=
  (ofText text).tokens requests

/-- The byte behind the last of some tokens, and the start of the text if there is none. -/
def reachedBy (tokens : List Token) : Nat :=
  (tokens.getLast?.map Token.stop).getD 0

/-- The last token tells how far the search has come. -/
theorem reachedBy_requested {text : String} (hsize : byteLength text.toList < UInt32.size)
    (requests : List (TokenKind × String)) :
    reachedBy (requested text requests) = ((ofText text).after requests).cursor := by
  rcases List.eq_nil_or_concat' requests with rfl | ⟨earlier, ⟨kind, word⟩, rfl⟩
  · rfl
  · have hbefore := (stands_ofText text).after hsize earlier
    rw [requested, tokens_append, after_append, tokens_cons, tokens_nil, after_cons, after_nil,
      reachedBy, List.getLast?_concat, (hbefore.placeToken hsize kind word).cursor]
    rfl

/-- Tokens that are requested over a text stand in order, inside it and between characters.  Each
is the leftmost occurrence of its word behind the token before.  Exactly if there is none, or the
word is empty, it is the empty token there, and what is requested later is given the same tokens
without this request. -/
theorem requested_leftmost_in_order {text : String}
    (hsize : byteLength text.toList < UInt32.size) (requests : List (TokenKind × String)) :
    let tokens := requested text requests
    tokens.map (·.kind) = requests.map (·.1) ∧
    (tokens.Pairwise fun earlier later => earlier.stop ≤ later.start) ∧
    (∀ token ∈ tokens, isBoundary text token.start = true ∧ isBoundary text token.stop = true ∧
      token.stop ≤ byteLength text.toList) ∧
    ∀ earlier kind word later, requests = earlier ++ (kind, word) :: later →
      ∃ (token : Token) (rest : List Token), tokens = requested text earlier ++ token :: rest ∧
        let reached := reachedBy (requested text earlier)
        (word ≠ "" ∧ IsLeast (occurrences text word reached) token.start ∧
            token.stop = token.start + byteLength word.toList ∨
          token.start = reached ∧ token.stop = reached) ∧
        (token.start = reached ∧ token.stop = reached ↔
          word = "" ∨ occurrences text word reached = ∅) ∧
        (token.start = token.stop →
          requested text (earlier ++ later) = requested text earlier ++ rest) := by
  have hstands := stands_ofText text
  refine ⟨map_kind_tokens _ requests, hstands.tokens_ordered hsize requests,
    fun token => hstands.isBoundary_of_mem_tokens hsize, ?_⟩
  rintro earlier kind word later rfl
  let reached := (ofText text).after earlier
  have hanswer := (hstands.after hsize earlier).placeToken hsize kind word
  refine ⟨(reached.placeToken kind word).1, (reached.placeToken kind word).2.tokens later, ?_, ?_⟩
  · rw [requested, tokens_append, tokens_cons]
    rfl
  · rw [reachedBy_requested hsize]
    refine ⟨hanswer.leftmost_or_empty, hanswer.empty_iff, fun hempty => ?_⟩
    rw [requested, tokens_append, hanswer.next_eq hempty]
    rfl

/-- A repeated word, words of more than one byte a character, one that is missing and an empty
one. -/
theorem requested_leftmost_in_order_mixed :
    let text := "é = $é;é"
    let earlier : List (TokenKind × String) := [(.plainName, "é"), (.equals, "=")]
    let later : List (TokenKind × String) := [(.whitespace, ""), (.variableName, "$é")]
    let requests := earlier ++ (.question, "?") :: (later ++ [(.plainName, "é")])
    byteLength text.toList < UInt32.size ∧
      (requested text requests).map (fun token => (token.start, token.stop)) =
        [(0, 2), (3, 4), (4, 4), (4, 4), (5, 8), (9, 11)] ∧
      occurrences text "?" 4 = ∅ ∧ IsLeast (occurrences text "é" 8) 9 ∧
      requested text (earlier ++ (later ++ [(.plainName, "é")])) =
        (requested text requests).eraseIdx 2 := by
  intro text earlier later requests
  have hsize : byteLength text.toList < UInt32.size := by decide
  have hearlier : requested text earlier = [⟨.plainName, 0, 2⟩, ⟨.equals, 3, 1⟩] := by
    decide +kernel
  have hlater : requested text (earlier ++ (.question, "?") :: later) = requested text earlier ++
      [⟨.question, 4, 0⟩, ⟨.whitespace, 4, 0⟩, ⟨.variableName, 5, 3⟩] := by
    decide +kernel
  have hall : requested text requests =
      requested text (earlier ++ (.question, "?") :: later) ++ [⟨.plainName, 9, 2⟩] := by
    decide +kernel
  obtain ⟨-, -, -, heach⟩ := requested_leftmost_in_order hsize requests
  obtain ⟨missing, rest, hmissing, -, hiff, hdropped⟩ := heach earlier .question "?" _ rfl
  obtain ⟨found, none, hfound, hleast, -⟩ :=
    heach (earlier ++ (.question, "?") :: later) .plainName "é" [] (by simp [requests])
  obtain ⟨rfl, -⟩ := List.cons.inj (List.append_cancel_left (hall.symm.trans hfound))
  rw [hlater] at hall hleast
  rw [hall, List.append_assoc] at hmissing
  obtain ⟨rfl, rfl⟩ := List.cons.inj (List.append_cancel_left hmissing)
  rw [hearlier] at hall hiff hdropped hleast
  refine ⟨hsize, ?_, ?_, ?_, ?_⟩
  · rw [hall]
    rfl
  · exact (hiff.1 ⟨rfl, rfl⟩).resolve_left (by decide)
  · exact (hleast.resolve_right (by decide)).2.1
  · rw [hdropped rfl, hall]
    rfl

end Layout

end SymbolIndex
