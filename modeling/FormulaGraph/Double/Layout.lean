import FormulaGraph.Double.Shortest

/-!
How the digits of a double are laid out as text.
-/

namespace FormulaGraph.Double

/-- The choices a written double leaves open once its digits are known. -/
structure Layout where
  /-- The least exponent of a first digit that is written without an exponent. -/
  positionalFrom : Int
  /-- The least exponent above which an exponent is written again. -/
  positionalBelow : Int
  /-- The least number of digits of a written exponent. -/
  exponentWidth : Nat
  infinity : String
  nan : String

/-- Doubles are written without an exponent from `0.0001` up to below `10 ^ 16`, always with a
point or an exponent, which has a sign and at least two digits. -/
def Layout.plain : Layout := ⟨-4, 16, 2, "inf", "nan"⟩

/-- As in plain text, with the names that value files use for what is not finite. -/
def Layout.interchange : Layout := ⟨-4, 16, 2, "Infinity", "NaN"⟩

/-- The digits with the point behind the digit of exponent zero, for a first digit of exponent
`lead`. -/
def positional (digits : List Char) (lead : Int) : List Char :=
  if lead < 0 then
    '0' :: '.' :: List.replicate ((-lead).toNat - 1) '0' ++ digits
  else
    let whole := digits.take (lead.toNat + 1)
    let fraction := digits.drop (lead.toNat + 1)
    whole ++ List.replicate (lead.toNat + 1 - whole.length) '0' ++
      '.' :: (if fraction.isEmpty then ['0'] else fraction)

/-- A signed exponent with at least `width` digits. -/
def exponentText (width : Nat) (exponent : Int) : List Char :=
  let digits := Nat.toDigits 10 exponent.natAbs
  'e' :: (if exponent < 0 then '-' else '+') ::
    List.replicate (width - digits.length) '0' ++ digits

/-- The first digit, the others behind a point, and the exponent. -/
def scientific (width : Nat) (digits : List Char) (lead : Int) : List Char :=
  let mantissa := match digits with
    | first :: second :: rest => first :: '.' :: second :: rest
    | digits => digits
  mantissa ++ exponentText width lead

def dropTrailingZeros (digits : List Char) : List Char :=
  (digits.reverse.dropWhile (· == '0')).reverse

def Layout.magnitude (layout : Layout) (d : Decimal) : List Char :=
  let all := Nat.toDigits 10 d.digits
  let lead := d.exponent + all.length - 1
  let digits := dropTrailingZeros all
  if layout.positionalFrom ≤ lead && lead < layout.positionalBelow then positional digits lead
  else scientific layout.exponentWidth digits lead

/-- A double as the shortest text that reads back as it. -/
def Layout.render (layout : Layout) (x : Float) : String :=
  match parts? x with
  | some p =>
    let magnitude := if p.significand = 0 then ['0', '.', '0'] else layout.magnitude p.shortest
    String.ofList (if p.negative then '-' :: magnitude else magnitude)
  | none =>
    if x.isNaN then layout.nan
    else if x < 0 then "-" ++ layout.infinity
    else layout.infinity

end FormulaGraph.Double
