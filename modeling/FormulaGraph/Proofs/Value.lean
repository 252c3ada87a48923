import Mathlib.Data.Nat.Digits.Defs
import FormulaGraph.Value

/-! Values that can be written as text: an integer has a limited number of digits. -/
namespace FormulaGraph
namespace Value

theorem isWritableInt_iff {n : Int} : isWritableInt n = true ↔ n.natAbs < 10 ^ Text.digitLimit := by
  rw [isWritableInt, decide_eq_true_iff]
  exact Nat.length_toDigits_le_iff (by decide) (by decide)

end Value
end FormulaGraph
