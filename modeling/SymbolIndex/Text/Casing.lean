import SymbolIndex.Text.CaseTable

/-!
# Letter case

Names are compared without regard to ASCII case, and filed under their full lower-case form. The
full form follows Unicode: one letter lowers to two, and a capital sigma lowers to its final form
at the end of a word.
-/

namespace SymbolIndex.Text

/-- Replaces the ASCII capitals. -/
def asciiLower (chars : List Char) : List Char :=
  chars.map Char.toLower

/-- Equality up to ASCII case. -/
def eqIgnoringCase (left right : String) : Bool :=
  asciiLower left.toList == asciiLower right.toList

def inRanges (ranges : List (Nat × Nat)) (c : Char) : Bool :=
  ranges.any fun (first, last) => first ≤ c.toNat && c.toNat ≤ last

/-- A character that has case and is not looked through at the end of a word. -/
def isCased (c : Char) : Bool :=
  if c.toNat < 128 then c.isAlpha else inRanges casedRanges c

/-- A character that is looked through at the end of a word. -/
def isCaseIgnorable (c : Char) : Bool :=
  inRanges ignorableRanges c

/-- The first character that is not looked through has case. -/
def meetsCased (chars : List Char) : Bool :=
  (chars.dropWhile isCaseIgnorable).head?.any isCased

/-- The lower-case form of a character outside its context. -/
def lowerChar (c : Char) : List Char :=
  if c.toNat < 128 then [c.toLower]
  else if c = 'İ' then ['i', '\u0307']
  else
    let n := c.toNat
    let covers (run : CaseRun) := run.first ≤ n && n ≤ run.last && (n - run.first) % run.step == 0
    match caseRuns.find? covers with
    | some run => [Char.ofNat (run.target + (n - run.first))]
    | none => [c]

/-- Lowers a text, with the characters before it nearest first. -/
def lowerAfter (before : List Char) : List Char → List Char
  | [] => []
  | c :: rest =>
    let lowered :=
      if c = 'Σ' then if meetsCased before && !meetsCased rest then ['ς'] else ['σ']
      else lowerChar c
    lowered ++ lowerAfter (c :: before) rest

/-- The full lower-case form of a text. -/
def lowerChars (chars : List Char) : List Char :=
  lowerAfter [] chars

/-- The full lower-case form of a string. -/
def lower (s : String) : String :=
  String.ofList (lowerChars s.toList)

theorem toList_lower (s : String) : (lower s).toList = lowerChars s.toList := by
  simp [lower]

theorem eqIgnoringCase_refl (s : String) : eqIgnoringCase s s = true := by
  simp [eqIgnoringCase]

end SymbolIndex.Text
