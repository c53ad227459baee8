/-!
# Positions and ranges

A position counts lines and characters from zero, characters being Unicode scalar values. The
order of positions is the order of the text: by line, then by character.
-/

namespace SymbolIndex

@[ext]
structure Position where
  line : Nat
  character : Nat
  deriving DecidableEq, Repr, Inhabited

namespace Position

protected def lt (left right : Position) : Prop :=
  left.line < right.line ∨ left.line = right.line ∧ left.character < right.character

protected def le (left right : Position) : Prop :=
  left.line < right.line ∨ left.line = right.line ∧ left.character ≤ right.character

instance : LT Position := ⟨Position.lt⟩
instance : LE Position := ⟨Position.le⟩

theorem lt_iff {left right : Position} :
    left < right ↔
      left.line < right.line ∨ left.line = right.line ∧ left.character < right.character :=
  Iff.rfl

theorem le_iff {left right : Position} :
    left ≤ right ↔
      left.line < right.line ∨ left.line = right.line ∧ left.character ≤ right.character :=
  Iff.rfl

instance (left right : Position) : Decidable (left < right) :=
  decidable_of_iff _ lt_iff.symm

instance (left right : Position) : Decidable (left ≤ right) :=
  decidable_of_iff _ le_iff.symm

end Position

/-- A stretch of text. Both ends belong to it, so that a cursor right after the last character of
a name is still on the name. -/
structure Range where
  start : Position
  stop : Position
  deriving DecidableEq, Repr, Inhabited

namespace Range

def contains (range : Range) (position : Position) : Bool :=
  decide (range.start ≤ position) && decide (position ≤ range.stop)

def containsRange (outer inner : Range) : Bool :=
  decide (outer.start ≤ inner.start) && decide (inner.stop ≤ outer.stop)

theorem contains_iff {range : Range} {position : Position} :
    range.contains position = true ↔ range.start ≤ position ∧ position ≤ range.stop := by
  simp [contains]

theorem containsRange_iff {outer inner : Range} :
    outer.containsRange inner = true ↔ outer.start ≤ inner.start ∧ inner.stop ≤ outer.stop := by
  simp [containsRange]

end Range

/-- A range of the document named by `uri`. -/
structure Location where
  uri : String
  range : Range
  deriving DecidableEq, Repr, Inhabited

end SymbolIndex
