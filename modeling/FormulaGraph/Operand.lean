import FormulaGraph.Calendar
import FormulaGraph.Double.Reader

/-!
What arithmetic works on: quantities, which are integers or doubles, and calendar days.
-/

namespace FormulaGraph

/-- A number: an integer of any size or a double. -/
inductive Quantity where
  | whole (n : Int)
  | real (x : Float)

inductive Operand where
  | number (q : Quantity)
  | day (d : Day)

namespace Quantity

/-- The double nearest to a quantity; an integer too large for one has none. -/
def toFloat? : Quantity → Option Float
  | whole n => Double.ofInt? n
  | real x => some x

/-- The quantity without its fraction; infinities and NaN have no such integer. -/
def truncate? : Quantity → Option Int
  | whole n => some n
  | real x => Double.truncate? x

/-- Exact comparison; false where one side is NaN. -/
def lt : Quantity → Quantity → Bool
  | whole a, whole b => a < b
  | whole a, real y => Double.intLt a y
  | real x, whole b => Double.ltInt x b
  | real x, real y => x < y

def eq : Quantity → Quantity → Bool
  | whole a, whole b => a == b
  | whole a, real y => Double.eqInt y a
  | real x, whole b => Double.eqInt x b
  | real x, real y => x == y

end Quantity

def Operand.eq : Operand → Operand → Bool
  | number p, number q => p.eq q
  | day d, day e => d == e
  | _, _ => false

end FormulaGraph
