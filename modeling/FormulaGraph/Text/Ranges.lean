/-!
Sets of characters given by intervals of code points.
-/

namespace FormulaGraph.Text

/-- Closed intervals of code points, in increasing order. -/
abbrev Ranges := List (Nat × Nat)

def Ranges.contains (ranges : Ranges) (code : Nat) : Bool :=
  ranges.any fun r => r.1 ≤ code && code ≤ r.2

end FormulaGraph.Text
