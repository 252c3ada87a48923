import FormulaGraph.Operand
import FormulaGraph.Double.Layout
import FormulaGraph.Text.Quoted

/-!
Raw values: what a value table maps identifiers to and what the cells of a graph hold, how they
are compared, and how they are written in messages.
-/

namespace FormulaGraph

/-- A raw value. Only some are operands of arithmetic; the others are carried along. -/
inductive Value where
  /-- The absence of a value. -/
  | missing
  | bool (b : Bool)
  | int (n : Int)
  | float (x : Float)
  | text (s : String)
  | date (d : Day)
  /-- A day with a time of day, which no operation looks at. -/
  | moment (d : Day) (clock : Clock)
  | operand (o : Operand)
  | list (items : List Value)
  | record (fields : List (String × Value))

instance : Inhabited Value := ⟨.missing⟩

namespace Value

/-- No value: a missing one or the double that is no number. -/
def isMissing : Value → Bool
  | missing => true
  | float x => x.isNaN
  | _ => false

def isNaN : Value → Bool
  | float x => x.isNaN
  | _ => false

/-- The quantity of a value that counts as a number in comparisons; truth values are `1` and `0`. -/
def quantity? : Value → Option Quantity
  | bool b => some (.whole (if b then 1 else 0))
  | int n => some (.whole n)
  | float x => some (.real x)
  | _ => none

mutual

/-- Equality of cells: numbers and truth values by number, everything else by kind and content. -/
def eq : Value → Value → Bool
  | missing, missing => true
  | text s, text t => s == t
  | date d, date e => d == e
  | moment d s, moment e t => d == e && s == t
  | operand o, operand p => o.eq p
  | list xs, list ys => eqItems xs ys
  | record xs, record ys => xs.length == ys.length && eqFields xs ys
  | v, w => match v.quantity?, w.quantity? with
    | some p, some q => p.eq q
    | _, _ => false

def eqItems : List Value → List Value → Bool
  | [], [] => true
  | x :: xs, y :: ys => eq x y && eqItems xs ys
  | _, _ => false

/-- Whether all fields of a record are those of another one, in any order. -/
def eqFields : List (String × Value) → List (String × Value) → Bool
  | [], _ => true
  | (k, x) :: xs, ys => (ys.lookup k).elim false (fun y => eq x y) && eqFields xs ys

end

/-- Equality of cells in which a missing value equals a missing value. -/
def agrees (v w : Value) : Bool := v.eq w || (v.isMissing && w.isMissing)

/-- Equality of cells in which a missing value equals nothing. -/
def equals (v w : Value) : Bool := v.eq w && !v.isMissing

/-- Whether a value can be found among others by equality; lists and records cannot. -/
def isHashable : Value → Bool
  | list _ | record _ => false
  | _ => true

def isInt : Value → Bool
  | int _ => true
  | _ => false

def kind : Value → String
  | missing => "NoneType"
  | bool _ => "bool"
  | int _ => "int"
  | float _ => "float"
  | text _ => "str"
  | date _ => "date"
  | moment _ _ => "datetime"
  | operand (.number _) => "Number"
  | operand (.day _) => "CalendarDay"
  | list _ => "list"
  | record _ => "dict"

def callLiteral (name : String) (arguments : List Nat) : String :=
  name ++ "(" ++ ", ".intercalate (arguments.map toString) ++ ")"

def dayLiteral (d : Day) : String :=
  let (year, month, day) := d.date
  callLiteral "datetime.date" [year, month, day]

/-- A day with a time of day as a call that makes it; seconds and microseconds are left out where
they and what follows them are zero. -/
def momentLiteral (d : Day) (clock : Clock) : String :=
  let (year, month, day) := d.date
  let rest := if clock.microsecond ≠ 0 then [clock.second, clock.microsecond]
    else if clock.second ≠ 0 then [clock.second]
    else []
  callLiteral "datetime.datetime" ([year, month, day, clock.hour, clock.minute] ++ rest)

def isWritableInt (n : Int) : Bool := (Nat.toDigits 10 n.natAbs).length ≤ Text.digitLimit

def floatText (x : Float) : String := Double.Layout.plain.render x

def quantityText : Quantity → String
  | .whole n => toString n
  | .real x => floatText x

mutual

/-- A value inside a list, a record or a tuple: texts are quoted. -/
def literal : Value → String
  | missing => "None"
  | bool b => if b then "True" else "False"
  | int n => toString n
  | float x => floatText x
  | text s => Text.quoted s
  | date d => dayLiteral d
  | moment d clock => momentLiteral d clock
  | operand (.number q) => "Number(value=" ++ quantityText q ++ ")"
  | operand (.day d) => "CalendarDay(day=" ++ dayLiteral d ++ ")"
  | list items => "[" ++ ", ".intercalate (literals items) ++ "]"
  | record fields => "\x7b" ++ ", ".intercalate (fieldLiterals fields) ++ "\x7d"

def literals : List Value → List String
  | [] => []
  | v :: rest => literal v :: literals rest

def fieldLiterals : List (String × Value) → List String
  | [] => []
  | (key, v) :: rest => (Text.quoted key ++ ": " ++ literal v) :: fieldLiterals rest

end

/-- A value on its own: a text stands as it is, and dates are written in figures. -/
def display : Value → String
  | text s => s
  | date d => d.fullText
  | moment d clock => d.fullText ++ " " ++ clock.text
  | v => v.literal

mutual

/-- Whether a value can be written as text: none of its integers has too many digits. -/
def isWritable : Value → Bool
  | int n => isWritableInt n
  | operand (.number (.whole n)) => isWritableInt n
  | list items => areWritable items
  | record fields => areWritableFields fields
  | _ => true

def areWritable : List Value → Bool
  | [] => true
  | v :: rest => isWritable v && areWritable rest

def areWritableFields : List (String × Value) → Bool
  | [] => true
  | (_, v) :: rest => isWritable v && areWritableFields rest

end

def longIntegerText : String :=
  "Exceeds the limit (" ++ toString Text.digitLimit ++ " digits) for integer string conversion; " ++
    "use sys.set_int_max_str_digits() to increase the limit"

def tupleText : List Value → String
  | [v] => "(" ++ v.literal ++ ",)"
  | items => "(" ++ ", ".intercalate (literals items) ++ ")"

end Value
end FormulaGraph
