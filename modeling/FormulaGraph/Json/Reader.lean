import FormulaGraph.Table
import FormulaGraph.Value

/-!
Reading JSON. Beyond the standard, the names `NaN`, `Infinity` and `-Infinity` are numbers.
Integers have up to 4300 digits, other numbers are rounded to doubles; the last of several fields of
one name counts.
-/

namespace FormulaGraph.Json

inductive Error where
  | malformed
  /-- An integer has too many digits. -/
  | longInteger
deriving DecidableEq

/-- A result that is missing only where the text is malformed. -/
def orMalformed {α : Type} (r : Option α) : Except Error α :=
  match r with
  | some a => .ok a
  | none => .error .malformed

def skipSpace (cs : List Char) : List Char :=
  cs.dropWhile fun c => c == ' ' || c == '\t' || c == '\n' || c == '\r'

def hexValue? (c : Char) : Option Nat :=
  if '0' ≤ c ∧ c ≤ '9' then some (c.toNat - '0'.toNat)
  else if 'a' ≤ c ∧ c ≤ 'f' then some (c.toNat - 'a'.toNat + 10)
  else if 'A' ≤ c ∧ c ≤ 'F' then some (c.toNat - 'A'.toNat + 10)
  else none

def hex4? (a b c d : Char) : Option Nat := do
  return ((← hexValue? a) * 16 + (← hexValue? b)) * 256 +
    ((← hexValue? c) * 16 + (← hexValue? d))

/-- The character that a letter stands for behind a backslash. -/
def escaped? (c : Char) : Option Char :=
  [('"', '"'), ('\\', '\\'), ('/', '/'), ('b', '\x08'), ('f', '\x0c'), ('n', '\n'), ('r', '\r'),
    ('t', '\t')].lookup c

def isHigh (unit : Nat) : Bool := 0xd800 ≤ unit && unit < 0xdc00

def isLow (unit : Nat) : Bool := 0xdc00 ≤ unit && unit < 0xe000

/-- The character of a code unit; a half without its other half has none of its own. -/
def ofUnit (unit : Nat) : Char :=
  if isHigh unit || isLow unit then '\ufffd' else Char.ofNat unit

/-- A text up to its closing quote, given the code unit just read if it is the first half of a
pair, and what follows. -/
def text? (high : Option Nat) : List Char → Option (List Char × List Char)
  | '"' :: rest => some ((high.map ofUnit).toList, rest)
  | '\\' :: 'u' :: a :: b :: c :: d :: rest => do
    let unit ← hex4? a b c d
    match high with
    | some h =>
      if isLow unit then
        let (cs, rest) ← text? none rest
        return (Char.ofNat (0x10000 + (h - 0xd800) * 0x400 + (unit - 0xdc00)) :: cs, rest)
      else if isHigh unit then
        let (cs, rest) ← text? (some unit) rest
        return (ofUnit h :: cs, rest)
      else
        let (cs, rest) ← text? none rest
        return (ofUnit h :: ofUnit unit :: cs, rest)
    | none =>
      if isHigh unit then text? (some unit) rest
      else
        let (cs, rest) ← text? none rest
        return (ofUnit unit :: cs, rest)
  | '\\' :: c :: rest => do
    let e ← escaped? c
    let (cs, rest) ← text? none rest
    return ((high.map ofUnit).toList ++ e :: cs, rest)
  | c :: rest =>
    if c.toNat < 0x20 then none
    else do
      let (cs, rest) ← text? none rest
      return ((high.map ofUnit).toList ++ c :: cs, rest)
  | [] => none

def isDigit (c : Char) : Bool := '0' ≤ c && c ≤ '9'

/-- The digits of the whole part of a number, which start with zero only if that is all of them. -/
def whole? : List Char → Option (List Char × List Char)
  | '0' :: rest => some (['0'], rest)
  | cs =>
    let digits := cs.takeWhile isDigit
    if digits.isEmpty then none else some (digits, cs.dropWhile isDigit)

def fraction : List Char → List Char × List Char
  | '.' :: rest =>
    let digits := rest.takeWhile isDigit
    if digits.isEmpty then ([], '.' :: rest) else (digits, rest.dropWhile isDigit)
  | cs => ([], cs)

def exponent? (cs : List Char) : Option (Int × List Char) :=
  match cs with
  | c :: rest =>
    if c = 'e' || c = 'E' then
      let (negative, rest) := Double.splitSign rest
      let digits := rest.takeWhile isDigit
      if digits.isEmpty then none
      else
        let n : Int := Text.readDigits 0 digits
        some (if negative then -n else n, rest.dropWhile isDigit)
    else none
  | [] => none

def number (negative : Bool) (cs : List Char) : Except Error (Value × List Char) := do
  let (digits, rest) ← orMalformed (whole? cs)
  let (places, rest) := fraction rest
  let n := Text.readDigits (Text.readDigits 0 digits) places
  match exponent? rest with
  | some (e, rest) => return (.float (Double.ofDecimal negative n (e - places.length)), rest)
  | none =>
    if !places.isEmpty then return (.float (Double.ofDecimal negative n (-places.length)), rest)
    else if digits.length ≤ Text.digitLimit then
      return (.int (if negative then -(n : Int) else n), rest)
    else throw .longInteger

def afterWord? : List Char → List Char → Option (List Char)
  | [], cs => some cs
  | _, [] => none
  | w :: word, c :: cs => if w = c then afterWord? word cs else none

def names : List (String × Value) := [
  ("null", .missing), ("true", .bool true), ("false", .bool false), ("NaN", .float Double.nan),
  ("Infinity", .float (Double.infinite false)), ("-Infinity", .float (Double.infinite true))]

def named? (cs : List Char) : Option (Value × List Char) :=
  names.findSome? fun (name, v) => (afterWord? name.toList cs).map (v, ·)

mutual

/-- A value at the start of a text, and what follows, in at most `fuel` calls nested. -/
def value : Nat → List Char → Except Error (Value × List Char)
  | 0, _ => .error .malformed
  | fuel + 1, cs =>
    match cs with
    | '"' :: rest => do
      let (t, rest) ← orMalformed (text? none rest)
      return (.text (String.ofList t), rest)
    | '[' :: rest =>
      match skipSpace rest with
      | ']' :: rest => .ok (.list [], rest)
      | rest => do
        let (found, rest) ← items fuel rest
        return (.list found, rest)
    | '\x7b' :: rest =>
      match skipSpace rest with
      | '\x7d' :: rest => .ok (.record [], rest)
      | rest => do
        let (found, rest) ← fields fuel rest
        return (.record (Table.ofList found).entries, rest)
    | cs =>
      match named? cs with
      | some r => .ok r
      | none =>
        match cs with
        | '-' :: rest => number true rest
        | cs => number false cs

def items : Nat → List Char → Except Error (List Value × List Char)
  | 0, _ => .error .malformed
  | fuel + 1, cs => do
    let (v, rest) ← value fuel cs
    match skipSpace rest with
    | ',' :: rest =>
      let (found, rest) ← items fuel (skipSpace rest)
      return (v :: found, rest)
    | ']' :: rest => return ([v], rest)
    | _ => throw .malformed

def fields : Nat → List Char → Except Error (List (String × Value) × List Char)
  | 0, _ => .error .malformed
  | fuel + 1, cs => do
    let '"' :: rest := cs | throw .malformed
    let (key, rest) ← orMalformed (text? none rest)
    let ':' :: rest := skipSpace rest | throw .malformed
    let (v, rest) ← value fuel (skipSpace rest)
    let field := (String.ofList key, v)
    match skipSpace rest with
    | ',' :: rest =>
      let (found, rest) ← fields fuel (skipSpace rest)
      return (field :: found, rest)
    | '\x7d' :: rest => return ([field], rest)
    | _ => throw .malformed

end

def read (s : String) : Except Error Value := do
  let cs := skipSpace s.toList
  let (v, rest) ← value (2 * cs.length + 2) cs
  if (skipSpace rest).isEmpty then return v else throw .malformed

end FormulaGraph.Json
