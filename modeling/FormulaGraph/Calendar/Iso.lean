import FormulaGraph.Calendar

/-!
Dates and times in text, in the forms of ISO 8601: a year, a year and a month, or a full date, then
a time down to hours, minutes, seconds or fractions of a second. What is left out is the first or
zero. Texts that name a time zone are not read.
-/

namespace FormulaGraph.Iso

def digit? (c : Char) : Option Nat :=
  if '0' ≤ c ∧ c ≤ '9' then some (c.toNat - '0'.toNat) else none

/-- A number of two digits at the start of a text, and what follows. One digit is enough if
`short`. -/
def two? (short : Bool) : List Char → Option (Nat × List Char)
  | c :: d :: rest => do
    let tens ← digit? c
    match digit? d with
    | some units => return (10 * tens + units, rest)
    | none => if short then some (tens, d :: rest) else none
  | [c] => if short then (digit? c).map (·, []) else none
  | [] => none

def year? : List Char → Option (Nat × List Char)
  | a :: b :: c :: d :: rest => do
    return ((((← digit? a) * 10 + (← digit? b)) * 10 + (← digit? c)) * 10 + (← digit? d), rest)
  | _ => none

/-- What may stand between year, month and day: always the same, or nothing. -/
def isDateSeparator (c : Char) : Bool := ['-', '.', '/', '\\', ' '].contains c

/-- The microseconds of the digits behind a point, if they say no more than that. -/
def microseconds? (digits : List Char) : Option Nat :=
  if (digits.drop 6).all (· == '0') then
    some (((digits ++ List.replicate 6 '0').take 6).foldl (fun n c => 10 * n + (digit? c).getD 0) 0)
  else none

def fraction? : List Char → Option Nat
  | [] => some 0
  | '.' :: digits =>
    if digits.length ≤ 18 && digits.all (digit? · |>.isSome) then microseconds? digits else none
  | _ => none

/-- Seconds at the start of a text, behind a colon if the time has colons, and the rest of it. -/
def secondsFrom? (colons : Bool) (hour minute : Nat) (cs : List Char) : Option Clock := do
  let cs ← if colons then
      match cs with
      | ':' :: rest => some rest
      | _ => none
    else some cs
  let (second, rest) ← two? colons cs
  let microsecond ← fraction? rest
  return ⟨hour, minute, second, microsecond⟩

def clock? (cs : List Char) : Option Clock := do
  let (hour, rest) ← two? true cs
  let clock ← match rest with
    | [] => if cs.length = 2 then some ⟨hour, 0, 0, 0⟩ else none
    | _ => do
      let (colons, rest) := match rest with
        | ':' :: rest => (true, rest)
        | rest => (false, rest)
      let (minute, rest) ← two? colons rest
      if rest.isEmpty then some ⟨hour, minute, 0, 0⟩ else secondsFrom? colons hour minute rest
  if clock.hour < 24 && clock.minute < 60 && clock.second < 60 then some clock else none

def midnight : Clock := ⟨0, 0, 0, 0⟩

/-- The rest of a text behind year and month. -/
def dayFrom? (separator : Option Char) (year month : Nat) (cs : List Char) :
    Option (Day × Clock) := do
  let cs ← match separator, cs with
    | some s, c :: rest => if c = s then some rest else none
    | some _, [] => none
    | none, cs => some cs
  let (day, rest) ← two? separator.isSome cs
  let date ← Day.ofDate? year month day
  match rest with
  | [] => return (date, midnight)
  | c :: rest => if c = 'T' || c = ' ' then return (date, ← clock? rest) else none

def moment? (s : String) : Option (Day × Clock) := do
  let (year, rest) ← year? s.toList
  match rest with
  | [] => return (← Day.ofDate? year 1 1, midnight)
  | c :: rest' =>
    let separator := if isDateSeparator c then some c else none
    let (month, rest) ← two? separator.isSome (if separator.isSome then rest' else rest)
    if rest.isEmpty then
      if separator.isSome then return (← Day.ofDate? year month 1, midnight) else none
    else dayFrom? separator year month rest

end FormulaGraph.Iso
