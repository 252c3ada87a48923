import FormulaGraph.Double.Basic

/-!
The shortest decimal text of a double: of the decimals with the fewest digits that round to the
double, the one nearest to it, and of two equally near the one with an even last digit.
-/

namespace FormulaGraph.Double

/-- The number `digits * 10 ^ exponent`. -/
structure Decimal where
  digits : Nat
  exponent : Int

def Decimal.quotient (d : Decimal) : Nat × Nat := scaled 10 d.exponent d.digits 1

def Decimal.bits (d : Decimal) : Nat := nearestBits d.quotient.1 d.quotient.2

def digitCount (n : Nat) : Nat := (Nat.toDigits 10 n).length

/-- The exponent of the first digit of a positive quotient. -/
def leadingExponent (num den : Nat) : Int :=
  if den ≤ num then (digitCount (num / den) : Int) - 1
  else -(digitCount ((den + num - 1) / num - 1) : Int)

/-- Of the two neighbours of a quotient on the grid of multiples of `10 ^ exponent`, the one with
the given bits; if both have them, the nearer one, and the even one of two equally near. -/
def neighbour? (bits num den : Nat) (exponent : Int) : Option Decimal :=
  let (num, den) := scaled 10 (-exponent) num den
  let low : Decimal := ⟨num / den, exponent⟩
  let high : Decimal := ⟨num / den + 1, exponent⟩
  let near : Decimal := ⟨roundDiv num den, exponent⟩
  if low.bits == bits && high.bits == bits then some near
  else if low.bits == bits then some low
  else if high.bits == bits then some high
  else none

def Parts.decimal (p : Parts) : Decimal :=
  let digits := p.significand * Nat.pow 2 p.exponent.toNat * Nat.pow 5 (-p.exponent).toNat
  ⟨digits, if p.exponent < 0 then p.exponent else 0⟩

/-- The shortest decimal of a magnitude that is not zero, trying the grids of one to seventeen
digits. -/
def Parts.shortest (p : Parts) : Decimal :=
  let (num, den) := p.quotient
  let bits := nearestBits num den
  let lead := leadingExponent num den
  let grids := (List.range 17).map fun (n : Nat) => lead - n
  (grids.findSome? (neighbour? bits num den)).getD p.decimal

end FormulaGraph.Double
