/-!
Doubles and exact rational numbers: the value of a finite double, and the double nearest to a
quotient of naturals. Everything that compares, truncates, reads or prints doubles goes through
these two.
-/

namespace FormulaGraph.Double

/-- A finite double, which is `significand * 2 ^ exponent`, negated if `negative`. -/
structure Parts where
  negative : Bool
  significand : Nat
  exponent : Int

/-- How many fractions there are, which is `2 ^ 52`. -/
def fractions : Nat := 0x10000000000000

def signBit : Nat := 0x8000000000000000

/-- The parts of a double; an infinity or a NaN has none. -/
def parts? (x : Float) : Option Parts :=
  let bits := x.toBits.toNat
  let negative := signBit ≤ bits
  let biased := bits / fractions % 0x800
  let fraction := bits % fractions
  if biased = 0x7ff then none
  else if biased = 0 then some ⟨negative, fraction, -1074⟩
  else some ⟨negative, fractions + fraction, (biased : Int) - 1075⟩

/-- The quotient `num / den` times `base ^ exponent`, as a quotient of naturals. -/
def scaled (base : Nat) (exponent : Int) (num den : Nat) : Nat × Nat :=
  (num * base.pow exponent.toNat, den * base.pow (-exponent).toNat)

def Parts.quotient (p : Parts) : Nat × Nat := scaled 2 p.exponent p.significand 1

def toRat? (x : Float) : Option Rat :=
  (parts? x).map fun p =>
    let (num, den) := p.quotient
    mkRat (if p.negative then -(num : Int) else num) den

/-- The natural nearest to a quotient; a tie goes to the even one. -/
def roundDiv (num den : Nat) : Nat :=
  let q := num / den
  let r := num % den
  if 2 * r < den || (2 * r == den && q % 2 == 0) then q else q + 1

/-- The exponent of the last of the 53 binary places of a positive quotient, at least `-1074`. -/
def lastPlace (num den : Nat) : Int :=
  let e : Int := (num.log2 : Int) - den.log2 - 52
  let (n, d) := scaled 2 (-e) num den
  let e := if n < fractions * d then e - 1 else e
  if e < -1074 then -1074 else e

def infinityBits : Nat := 0x7ff0000000000000

/-- The bits of the double nearest to a quotient, a tie going to the even significand; infinity
where that double would be too large. -/
def nearestBits (num den : Nat) : Nat :=
  if num = 0 then 0
  else
    let e := lastPlace num den
    let (n, d) := scaled 2 (-e) num den
    let bits := roundDiv n d + (e + 1074).toNat * fractions
    if bits < infinityBits then bits else infinityBits

def ofMagnitude (negative : Bool) (bits : Nat) : Float :=
  Float.ofBits (UInt64.ofNat (if negative then signBit + bits else bits))

def nearest (negative : Bool) (num den : Nat) : Float :=
  ofMagnitude negative (nearestBits num den)

def infinite (negative : Bool) : Float := ofMagnitude negative infinityBits

def nan : Float := Float.ofBits 0x7ff8000000000000

def ofInt? (n : Int) : Option Float :=
  if nearestBits n.natAbs 1 = infinityBits then none else some (nearest (n < 0) n.natAbs 1)

/-- The double `(-1) ^ negative * digits * 10 ^ exponent` is nearest to. Exponents that no digit
could bring back into range are decided before any power is computed. -/
def ofDecimal (negative : Bool) (digits : Nat) (exponent : Int) : Float :=
  if digits = 0 then nearest negative 0 1
  else
    let places : Int := digits.log2
    if 310 < exponent then infinite negative
    else if exponent < -(places + 400) then nearest negative 0 1
    else
      let (num, den) := scaled 10 exponent digits 1
      nearest negative num den

def truncate? (x : Float) : Option Int :=
  (toRat? x).map fun r => r.num.tdiv r.den

def ceiling? (x : Float) : Option Int := (toRat? x).map Rat.ceil

/-- The integer a double is equal to, if it is one. -/
def toInt? (x : Float) : Option Int :=
  (toRat? x).bind fun r => if r.den = 1 then some r.num else none

def intLt (n : Int) (x : Float) : Bool :=
  match toRat? x with
  | some r => (n : Rat) < r
  | none => 0 < x

def ltInt (x : Float) (n : Int) : Bool :=
  match toRat? x with
  | some r => r < (n : Rat)
  | none => x < 0

def eqInt (x : Float) (n : Int) : Bool := toInt? x == some n

end FormulaGraph.Double
