import Mathlib.Order.Defs.LinearOrder
import SymbolIndex.Position

/-!
# The order of positions

Any two positions stand in the order of the text.
-/

namespace SymbolIndex.Position

instance : LinearOrder Position where
  le_refl position := le_iff.2 (Or.inr ⟨rfl, Nat.le_refl _⟩)
  le_trans first second third hfirst hsecond := by
    rw [le_iff] at *
    omega
  lt_iff_le_not_ge left right := by
    rw [lt_iff, le_iff, le_iff]
    omega
  le_antisymm left right hle hge := by
    rw [le_iff] at hle hge
    exact Position.ext (by omega) (by omega)
  le_total left right := by
    rw [le_iff, le_iff]
    omega
  toDecidableLE := inferInstance
  toDecidableEq := inferInstance
  toDecidableLT := inferInstance

end SymbolIndex.Position
