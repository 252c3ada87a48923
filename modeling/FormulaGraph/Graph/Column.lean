import FormulaGraph.Calendar.Iso
import FormulaGraph.Value

/-!
Columns: cells that are compared together. What the cells of a column have in common is its kind,
and the kind decides how they are compared: a column that holds a double holds doubles only, so that
its integers are rounded; cells of no common kind are compared one by one and exactly. Some
comparisons are refused.
-/

namespace FormulaGraph

/-- What the cells of a column have in common. -/
inductive CellKind where
  /-- Nothing that matters: any cells, each compared for itself. -/
  | mixed
  | texts
  | bools
  /-- Integers of 64 bits. -/
  | integers
  /-- Integers of 64 bits without a sign, not all of which fit into 64 bits with one. -/
  | naturals
  | doubles
  /-- Days with a time of day. -/
  | moments
deriving DecidableEq

inductive ColumnError where
  /-- A list is compared with a column of another length. -/
  | lengthMismatch
  /-- The kinds of two columns to be joined do not go together. -/
  | kindMismatch
  /-- An integer is too large. -/
  | outOfRange
  /-- A column without a kind has cells of unlike kinds. -/
  | unlikeCells
  /-- A constant is of a kind that texts are not compared with. -/
  | incomparable
  /-- A list or a record would have to be found by equality. -/
  | unhashable
  /-- The name of a column was needed for another one. -/
  | lostColumn (name : String)

def ColumnError.message : ColumnError → String
  | lengthMismatch => "the lengths of the columns differ"
  | kindMismatch => "columns of these kinds cannot be joined"
  | outOfRange => "an integer is out of range"
  | unlikeCells => "the cells of a column differ in kind"
  | incomparable => "texts are not compared with such a value"
  | unhashable => "lists and records cannot be looked up"
  | lostColumn name => "no column " ++ Text.quoted name

/-- Cells of a kind; in a column of doubles each cell is one, NaN where a value is missing. -/
structure Column where
  kind : CellKind
  cells : List Value

namespace Column

def isInt64 (n : Int) : Bool := -0x8000000000000000 ≤ n && n ≤ 0x7fffffffffffffff

/-- Whether an integer has 64 bits only without a sign. -/
def isLarge (n : Int) : Bool := 0x7fffffffffffffff < n && n ≤ 0xffffffffffffffff

/-- What has been met among the first cells of a column, all of them numbers, truth values or
missing. -/
structure Census where
  absent : Bool := false
  nan : Bool := false
  bools : Bool := false
  integers : Bool := false
  doubles : Bool := false
  negative : Bool := false
  large : Bool := false

namespace Census

/-- With one more integer, unless it and those before fit no integers of 64 bits. Behind an absent
value all integers do, since they become doubles. -/
def addInt? (c : Census) (n : Int) : Option Census :=
  let c := { c with integers := true }
  if c.absent then some c
  else
    let c := { c with negative := c.negative || n < 0, large := c.large || isLarge n }
    if (isInt64 n || isLarge n) && !(c.negative && c.large) then some c else none

def kind (c : Census) : CellKind :=
  if c.bools then
    if c.absent || c.nan || c.integers || c.doubles then .mixed else .bools
  else if c.doubles || c.nan || (c.absent && c.integers) then .doubles
  else if c.large then .naturals
  else if c.integers then .integers
  else .mixed

end Census

/-- The kind of a column of numbers, truth values and missing cells; there is none if another cell
comes up, an integer too large for a double or one that does not go with those before. -/
def numericKind? (c : Census) : List Value → Option CellKind
  | [] => some c.kind
  | .missing :: rest => numericKind? { c with absent := true } rest
  | .bool _ :: rest => numericKind? { c with bools := true } rest
  | .float x :: rest =>
    numericKind? (if x.isNaN then { c with nan := true } else { c with doubles := true }) rest
  | .int n :: rest =>
    match Double.ofInt? n, c.addInt? n with
    | some _, some c => numericKind? c rest
    | _, _ => none
  | _ :: _ => none

def isText : Value → Bool
  | .text _ => true
  | _ => false

def isMoment : Value → Bool
  | .moment _ _ => true
  | _ => false

def otherKind (cells : List Value) : CellKind :=
  let present := cells.filter (!·.isMissing)
  if present.all isText then .texts
  else if present.all isMoment then .moments
  else .mixed

def kindOf (cells : List Value) : CellKind := (numericKind? {} cells).getD (otherKind cells)

def toDouble : Value → Value
  | .int n => .float (Double.nearest (n < 0) n.natAbs 1)
  | .missing => .float Double.nan
  | v => v

/-- The column with integers and missing cells as doubles. -/
def toDoubles (c : Column) : Column := ⟨.doubles, c.cells.map toDouble⟩

def ofCells (cells : List Value) : Column :=
  match kindOf cells with
  | .doubles => toDoubles ⟨.mixed, cells⟩
  | kind => ⟨kind, cells⟩

def equalTo (c : Column) (v : Value) : List Bool := c.cells.map (·.equals v)

def nowhere (c : Column) : List Bool := c.cells.map fun _ => false

/-- The cell whose kind the others are expected to have: the first one, but the double that follows
if integers come first. Cells of unknown kinds lead nothing. -/
def leader? (cells : List Value) : Option Value :=
  let present := cells.filter (!·.isMissing)
  match present.dropWhile Value.isInt with
  | .float x :: _ => some (.float x)
  | .operand _ :: _ | .list _ :: _ | .record _ :: _ => none
  | _ => present.head?

/-- Whether a count of days or of microseconds goes with days, or with days and times. -/
def isCount (days : Bool) (n : Int) : Except ColumnError Bool :=
  if isInt64 n then .ok (!days || (-0x80000000 ≤ n && n ≤ 0x7fffffff)) else .error .outOfRange

/-- Whether a cell goes with the one that leads its column. Some cells that do not are refused. -/
def goesWith (leader cell : Value) : Except ColumnError Bool :=
  match leader, cell with
  | .text _, .text _ | .bool _, .bool _ | .float _, .float _ => .ok true
  | .date _, .date _ | .date _, .moment _ _ | .moment _ _, .moment _ _ => .ok true
  | .int _, .int n => if isInt64 n then .ok true else .error .outOfRange
  | .float _, .int n =>
    if isInt64 n then .ok (n.natAbs ≤ 0x20000000000000) else .error .outOfRange
  | .date _, .int n => isCount true n
  | .moment _ _, .int n => isCount false n
  | .date _, .float x => (Double.truncate? x).elim (.error .outOfRange) (isCount true)
  | .moment _ _, .float x => (Double.truncate? x).elim (.error .outOfRange) (isCount false)
  | .int _, .bool _ | .float _, .bool _ => .error .unlikeCells
  | .text _, _ | .date _, _ | .moment _ _, _ => .error .unlikeCells
  | _, _ => .ok false

/-- Checks cells up to the first one that does not go with their leader. -/
def checkLike (leader : Value) : List Value → Except ColumnError Unit
  | [] => .ok ()
  | v :: rest => do
    if v.isMissing then checkLike leader rest
    else if ← goesWith leader v then checkLike leader rest
    else return ()

def matchingTexts (c : Column) (texts : List String) : Except ColumnError (List Bool) :=
  match c.kind with
  | .texts => .ok (List.zipWith Value.equals c.cells (texts.map .text))
  | .mixed => do
    if let some leader := leader? c.cells then checkLike leader c.cells
    return List.zipWith Value.equals c.cells (texts.map .text)
  | .moments =>
    match texts.mapM Iso.moment? with
    | some moments =>
      .ok (List.zipWith Value.equals c.cells (moments.map fun (d, clock) => .moment d clock))
    | none => .ok c.nowhere
  | _ => .ok c.nowhere

/-- The items of a list as cells to compare with: next to texts, numbers and truth values are taken
as texts. -/
def itemCells (items : List Value) : List Value :=
  if items.any isText && items.all fun v => isText v || v.quantity?.isSome then
    items.map fun v => .text v.display
  else items

def texts? (cells : List Value) : Option (List String) :=
  cells.mapM fun v => match v with
    | .text s => some s
    | _ => none

/-- Which cells match the items of a list, one for each cell. -/
def matchingItems (c : Column) (items : List Value) : Except ColumnError (List Bool) :=
  if items.length ≠ c.cells.length then .error .lengthMismatch
  else match c.kind, texts? items with
    | .moments, some texts => c.matchingTexts texts
    | _, _ => .ok (List.zipWith Value.equals c.cells (itemCells items))

/-- Which cells match a constant. A missing one matches nothing, a list has one item for each cell,
and with times a text is compared as the time that it names. -/
def matching (c : Column) (v : Value) : Except ColumnError (List Bool) :=
  match c.kind, v with
  | _, .missing => .ok c.nowhere
  | _, .list items => c.matchingItems items
  | .mixed, v => .ok (c.equalTo v)
  | .bools, .int n => if isInt64 n then .ok (c.equalTo v) else .error .outOfRange
  | .integers, .float _ | .naturals, .float _ => .ok (c.toDoubles.equalTo v)
  | .doubles, .int n =>
    match Double.ofInt? n with
    | some x => .ok (c.equalTo (.float x))
    | none => .error .outOfRange
  | .texts, .int n => if isInt64 n then .ok c.nowhere else .error .outOfRange
  | .texts, .operand _ | .texts, .record _ => .error .incomparable
  | .moments, .record _ => .error .lengthMismatch
  | .moments, .text s =>
    match Iso.moment? s with
    | some (d, clock) => .ok (c.equalTo (.moment d clock))
    | none => .ok c.nowhere
  | _, v => .ok (c.equalTo v)

def isNumeric (c : Column) : Bool :=
  c.kind = .integers || c.kind = .naturals || c.kind = .doubles

def isDate : Value → Bool
  | .date _ | .moment _ _ => true
  | _ => false

/-- Whether a column without numbers may be joined with one of numbers: it has an integer, or all
its cells are days. -/
def joinsNumbers (c : Column) : Bool :=
  c.kind = .mixed && (c.cells.any Value.isInt || c.cells.all isDate)

/-- Two columns in the form in which their cells are compared when they are joined. Numbers of
different kinds are compared as doubles. -/
def unify (a b : Column) : Except ColumnError (Column × Column) :=
  if a.cells.isEmpty || b.cells.isEmpty || a.kind = b.kind then .ok (a, b)
  else if a.isNumeric && b.isNumeric then .ok (a.toDoubles, b.toDoubles)
  else if a.kind = .moments || b.kind = .moments then .error .kindMismatch
  else if a.kind = .bools || b.kind = .bools then .ok (a, b)
  else if (a.isNumeric && !b.joinsNumbers) || (b.isNumeric && !a.joinsNumbers) then
    .error .kindMismatch
  else .ok (a, b)

def rows (count : Nat) (columns : List Column) : List (List Value) :=
  columns.foldr (fun c rows => List.zipWith List.cons c.cells rows) (List.replicate count [])

end Column
end FormulaGraph
