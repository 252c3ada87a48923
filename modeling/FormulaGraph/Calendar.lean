import FormulaGraph.Text.Digit

/-!
Calendar days of the years 1 to 9999 in the Gregorian calendar, and times of day. A day is its
number, counted from 1 January of year 1, so that shifting a day and the distance of two days are
addition and subtraction; year, month and day of month are read off the number.
-/

namespace FormulaGraph

/-- A day, given by its number: 1 January of year 1 is day 1. -/
structure Day where
  number : Nat
  one_le : 1 ≤ number
  le_last : number ≤ 3652059
deriving DecidableEq

def padded (width n : Nat) : List Char :=
  let digits := Nat.toDigits 10 n
  List.replicate (width - digits.length) '0' ++ digits

namespace Day

def ofNumber? (n : Int) : Option Day :=
  if h : 1 ≤ n ∧ n ≤ 3652059 then some ⟨n.toNat, by omega, by omega⟩ else none

def shift? (d : Day) (n : Int) : Option Day := ofNumber? (d.number + n)

def since (d e : Day) : Int := (d.number : Int) - e.number

def isLeap (year : Nat) : Bool :=
  year % 4 == 0 && (year % 100 != 0 || year % 400 == 0)

/-- The number of the last day before a year. -/
def daysBeforeYear (year : Nat) : Nat :=
  let y := year - 1
  365 * y + y / 4 - y / 100 + y / 400

def monthLengths (year : Nat) : List Nat :=
  [31, if isLeap year then 29 else 28, 31, 30, 31, 30, 31, 31, 30, 31, 30, 31]

/-- The year in which day `n` lies: an estimate from the mean length of a year, which is off by at
most one, and its correction. -/
def yearOf (n : Nat) : Nat :=
  let y := (n - 1) * 400 / 146097 + 1
  if daysBeforeYear (y + 1) < n then y + 1
  else if n ≤ daysBeforeYear y then y - 1
  else y

/-- The month and day of month of the `n`-th day counted from the start of month `month`, for the
lengths of that month and those after it. -/
def splitMonths (month n : Nat) : List Nat → Nat × Nat
  | [] => (month, n)
  | length :: rest => if n ≤ length then (month, n) else splitMonths (month + 1) (n - length) rest

def date (d : Day) : Nat × Nat × Nat :=
  let year := yearOf d.number
  (year, splitMonths 1 (d.number - daysBeforeYear year) (monthLengths year))

def ofDate? (year month day : Nat) : Option Day :=
  if 1 ≤ year && year ≤ 9999 && 1 ≤ month && month ≤ 12 && 1 ≤ day then
    let lengths := monthLengths year
    if day ≤ lengths.getD (month - 1) 0 then
      let number := (lengths.take (month - 1)).foldl (· + ·) (daysBeforeYear year + day)
      ofNumber? number
    else none
  else none

def paddedText (width : Nat) (d : Day) : String :=
  let (year, month, day) := d.date
  String.ofList (padded width year ++ '-' :: padded 2 month ++ '-' :: padded 2 day)

/-- The text of a day as a result. The year has no leading zeros, so the text of a day before the
year 1000 is not one that `ofText?` reads. -/
def text (d : Day) : String := paddedText 1 d

def fullText (d : Day) : String := paddedText 4 d

open Text

def month? (tens units : Char) : Option Nat :=
  if tens = '0' && '1' ≤ units && units ≤ '9' then digitValue? units
  else if tens = '1' && '0' ≤ units && units ≤ '2' then (digitValue? units).map (10 + ·)
  else none

/-- A day of month of two digits, ASCII but for the units of a day from 10 to 29. -/
def dayOfMonth? (tens units : Char) : Option Nat :=
  if tens = '0' && '1' ≤ units && units ≤ '9' then digitValue? units
  else if tens = '1' then (digitValue? units).map (10 + ·)
  else if tens = '2' then (digitValue? units).map (20 + ·)
  else if tens = '3' && '0' ≤ units && units ≤ '1' then (digitValue? units).map (30 + ·)
  else none

/-- Whether a text has the form of a date: four digits, two and two, between hyphens. -/
def isDateText : List Char → Bool
  | [a, b, c, d, '-', e, f, '-', g, h] => [a, b, c, d, e, f, g, h].all isDigit
  | _ => false

/-- The day a date text names, if there is one. The year may have digits of any script. -/
def ofText? : List Char → Option Day
  | [a, b, c, d, '-', e, f, '-', g, h] => do
    guard ([a, b, c, d].all isDigit)
    let month ← month? e f
    let day ← dayOfMonth? g h
    ofDate? (readDigits 0 [a, b, c, d]) month day
  | _ => none

end Day

structure Clock where
  hour : Nat
  minute : Nat
  second : Nat
  microsecond : Nat
deriving DecidableEq

def Clock.text (c : Clock) : String :=
  String.ofList (padded 2 c.hour ++ ':' :: padded 2 c.minute ++ ':' :: padded 2 c.second ++
    if c.microsecond = 0 then [] else '.' :: padded 6 c.microsecond)

end FormulaGraph
