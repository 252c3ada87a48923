import FormulaGraph.Value

/-!
Arithmetic on values. A day and a number give a day, two days a number, two numbers a number; any
other combination has no result.
-/

namespace FormulaGraph

inductive Op where
  | add
  | sub
  | mul
  | div
deriving DecidableEq

def Op.symbol : Op → Char
  | add => '+'
  | sub => '-'
  | mul => '*'
  | div => '/'

def Op.ofSymbol? (c : Char) : Option Op :=
  [add, sub, mul, div].find? (·.symbol = c)

inductive ArithmeticError where
  | divisionByZero
  /-- An integer is too large for a double, or an infinity was to be rounded. -/
  | overflow
  | notANumber
  /-- An integer has too many digits to be written. -/
  | longInteger

def ArithmeticError.message : ArithmeticError → String
  | divisionByZero => "float division by zero"
  | overflow => "number too large"
  | notANumber => "cannot convert float NaN to integer"
  | longInteger => Value.longIntegerText

namespace Quantity

def toFloat (q : Quantity) : Except ArithmeticError Float :=
  match q.toFloat? with
  | some x => .ok x
  | none => .error .overflow

end Quantity

namespace Operand

def toValue : Operand → Except ArithmeticError Value
  | number q => return .float (← q.toFloat)
  | day d => return .text d.text

/-- Days shift by whole days: a fraction is dropped, and a shift by no whole day, by no finite
number of days or out of the calendar has no result. -/
def shift (d : Day) (op : Option Op) (q : Quantity) : Option Day :=
  match q.truncate? with
  | none => none
  | some n =>
    if n = 0 then none
    else match op with
      | some .add => d.shift? n
      | some .sub => d.shift? (-n)
      | _ => none

def numeric (a : Quantity) (op : Option Op) (b : Quantity) :
    Except ArithmeticError (Option Float) := do
  let x ← a.toFloat
  let y ← b.toFloat
  match op with
  | some .add => return some (x + y)
  | some .sub => return some (x - y)
  | some .mul => return some (x * y)
  | some .div => if y == 0 then throw .divisionByZero else return some (x / y)
  | none => return none

/-- The result of an operation, if the combination has one; `none` as operation stands for a symbol
without meaning, `none` as operand for a value that is none. -/
def apply (left : Option Operand) (op : Option Op) (right : Option Operand) :
    Except ArithmeticError (Option Operand) :=
  match left, right with
  | some (day d), some (number q) => return (shift d op q).map day
  | some (day d), some (day e) =>
    match op with
    | some .sub => return (Double.ofInt? (d.since e)).map (number ∘ .real)
    | _ => return none
  | some (number a), some (number b) => return (← numeric a op b).map (number ∘ .real)
  | _, _ => return none

end Operand

namespace Value

def number? : Value → Except ArithmeticError (Option Quantity)
  | bool b => return some (.real (if b then 1 else 0))
  | int n => return some (.real (← (Quantity.whole n).toFloat))
  | float x => return if x.isFinite then some (.real x) else none
  | text s => return (Double.finite? s.toList).map .real
  | _ => return none

/-- The operand a value stands for. A text is a day if it has the form of a date, and else a finite
number or nothing; truth values and NaN are no operands. -/
def operand? : Value → Except ArithmeticError (Option Operand)
  | operand o => return some o
  | date d => return some (.day d)
  | moment d _ => return some (.day d)
  | int n => return some (.number (.real (← (Quantity.whole n).toFloat)))
  | float x => return if x.isNaN then none else some (.number (.real x))
  | text s =>
    let cs := Text.trimChars s.toList
    if Day.isDateText cs then return (Day.ofText? cs).map .day
    else return (Double.finite? cs).map (.number ∘ .real)
  | missing | bool _ | list _ | record _ => return none

end Value

/-- The result of an operation on two values. A combination that has none is logged with its values,
and comes out as missing. -/
def computeValue (left : Value) (op : Option Op) (right : Value) :
    Except ArithmeticError Value := do
  match ← Operand.apply (← left.operand?) op (← right.operand?) with
  | some o => o.toValue
  | none => if left.isWritable && right.isWritable then return .missing else throw .longInteger

/-- The least integer not below a number, as a double; missing for a value that is no number. -/
def roundUp (v : Value) : Except ArithmeticError Value := do
  match ← v.operand? with
  | some (.number (.whole n)) => return .float (← (Quantity.whole n).toFloat)
  | some (.number (.real x)) =>
    match Double.ceiling? x with
    | some n => return .float (← (Quantity.whole n).toFloat)
    | none => throw (if x.isNaN then .notANumber else .overflow)
  | _ => return .missing

def raised (v : Value) (threshold : Quantity) : Option Operand → Except ArithmeticError Value
  | some (.number q) => do
    if q.lt threshold then return .float (← threshold.toFloat) else return v
  | _ => return .missing

/-- The threshold if it is greater than the value or the value is missing, else the value as it is;
missing for a value that is no number. -/
def maxOf (v : Value) (threshold : Quantity) : Except ArithmeticError Value :=
  match v with
  | .missing => return .float (← threshold.toFloat)
  | _ => do raised v threshold (← v.operand?)

end FormulaGraph
