import FormulaGraph.Double.Basic
import FormulaGraph.Text.Blank
import FormulaGraph.Text.Digit

/-!
Numbers in text. `number?` reads a whole text: blanks around it, a sign, decimal digits of any
script with single low lines between them, a point, an exponent, or the name of an infinity or of
NaN. `literal?` reads the plain numbers that rules hold at the start of a text.
-/

namespace FormulaGraph.Double

open Text

/-- The blanks that may stand around a number: all but the four information separators. -/
def isNumberBlank (c : Char) : Bool :=
  isBlank c && !(0x1c ≤ c.toNat && c.toNat ≤ 0x1f)

/-- The text without its low lines, each of which must stand between two digits; `afterDigit` tells
whether a digit stands before the text. -/
def joinDigits? (afterDigit : Bool) : List Char → Option (List Char)
  | [] => some []
  | '_' :: d :: rest =>
    if afterDigit && isDigit d then (joinDigits? true rest).map (d :: ·) else none
  | c :: rest => if c = '_' then none else (joinDigits? (isDigit c) rest).map (c :: ·)

def splitSign : List Char → Bool × List Char
  | '-' :: rest => (true, rest)
  | '+' :: rest => (false, rest)
  | cs => (false, cs)

def exponent? : List Char → Option Int
  | [] => some 0
  | c :: rest =>
    if c = 'e' || c = 'E' then
      let (negative, digits) := splitSign rest
      if digits.isEmpty || !digits.all isDigit then none
      else
        let n := readDigits 0 digits
        some (if negative then -(n : Int) else n)
    else none

/-- An unsigned decimal: digits with at most one point, at least one digit, then an exponent. -/
def unsigned? (negative : Bool) (cs : List Char) : Option Float :=
  let whole := cs.takeWhile isDigit
  let afterWhole := cs.dropWhile isDigit
  let (fraction, rest) := match afterWhole with
    | '.' :: tail => (tail.takeWhile isDigit, tail.dropWhile isDigit)
    | rest => ([], rest)
  if whole.isEmpty && fraction.isEmpty then none
  else (exponent? rest).map fun e =>
    ofDecimal negative (readDigits (readDigits 0 whole) fraction) (e - fraction.length)

/-- The number a whole text stands for, rounded to the nearest double; it may be infinite or NaN. -/
def number? (cs : List Char) : Option Float := do
  let cs ← joinDigits? false (trimBy isNumberBlank cs)
  let (negative, cs) := splitSign cs
  let name := cs.map Char.toLower
  if name = "inf".toList || name = "infinity".toList then some (infinite negative)
  else if name = "nan".toList then some nan
  else unsigned? negative cs

def finite? (cs : List Char) : Option Float :=
  (number? cs).filter Float.isFinite

/-- Digits at the start of a text, and a point only with digits behind it. Also gives what
follows. -/
def plain? (negative : Bool) (cs : List Char) : Option (Float × List Char) :=
  let whole := cs.takeWhile isDigit
  if whole.isEmpty then none
  else
    match cs.dropWhile isDigit with
    | '.' :: tail =>
      let fraction := tail.takeWhile isDigit
      if fraction.isEmpty then some (ofDecimal negative (readDigits 0 whole) 0, '.' :: tail)
      else
        some (ofDecimal negative (readDigits (readDigits 0 whole) fraction) (-fraction.length),
          tail.dropWhile isDigit)
    | rest => some (ofDecimal negative (readDigits 0 whole) 0, rest)

/-- A number at the start of a text: an optional minus, then digits with at most one point. Also
gives what follows. -/
def literal? : List Char → Option (Float × List Char)
  | '-' :: rest => plain? true rest
  | cs => plain? false cs

end FormulaGraph.Double
