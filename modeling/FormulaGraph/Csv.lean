import FormulaGraph.Graph.Sheet

/-!
Comma-separated tables. The first record names the columns; a record ends at a line feed, a
carriage return or both. A field that starts with a quote ends at the next one, where two quotes
in a row stand for one; quotes elsewhere are text. Empty fields, quoted or not, and those that a
short record lacks have no value. Lines with nothing but spaces and tabs are no records. If the
first record behind the names has more fields than there are names, the fields in front have none;
no later record may be longer.
-/

namespace FormulaGraph.Csv

inductive Error where
  | noColumns
  | unclosedQuote
  | longRecord

inductive Place where
  | start
  | plain
  | quoted
  /-- Behind a quote within a quoted field, which ends it or is the first of two. -/
  | quote

/-- What has been read: finished records, finished fields of the current one, and the characters of
the current field, all last first. -/
structure Progress where
  records : List (List String)
  fields : List String
  field : List Char
  place : Place
  /-- Whether the current record has a quoted field. -/
  hasQuotes : Bool

namespace Progress

def next (records : List (List String)) : Progress := ⟨records, [], [], .start, false⟩

def push (p : Progress) (c : Char) (place : Place) : Progress :=
  { p with field := c :: p.field, place }

def record (p : Progress) : List String :=
  (String.ofList p.field.reverse :: p.fields).reverse

/-- Whether the current line holds nothing but spaces and tabs. -/
def isBlankLine (p : Progress) : Bool :=
  p.fields.isEmpty && !p.hasQuotes && p.field.all fun c => c == ' ' || c == '\t'

def endLine (p : Progress) : Progress :=
  next (if p.isBlankLine then p.records else p.record :: p.records)

def endField (p : Progress) : Progress :=
  { p with fields := String.ofList p.field.reverse :: p.fields, field := [], place := .start }

def stepPlain (p : Progress) (c : Char) : Progress :=
  if c == ',' then p.endField
  else if c == '\n' || c == '\r' then p.endLine
  else p.push c .plain

def step (p : Progress) (c : Char) : Progress :=
  match p.place with
  | .start => if c == '"' then { p with place := .quoted, hasQuotes := true } else p.stepPlain c
  | .plain => p.stepPlain c
  | .quoted => if c == '"' then { p with place := .quote } else p.push c .quoted
  | .quote => if c == '"' then p.push c .quoted else p.stepPlain c

end Progress

def records (s : String) : Except Error (List (List String)) :=
  let p := s.toList.foldl Progress.step (Progress.next [])
  match p.place with
  | .quoted => .error .unclosedQuote
  | _ => .ok p.endLine.records.reverse

def cell (field : String) : Value :=
  if field.isEmpty then .float Double.nan else .text field

def row (width : Nat) (record : List String) : List Value :=
  record.map cell ++ List.replicate (width - record.length) (.float Double.nan)

def sheet (names : List String) (records : List (List String)) : Except Error Sheet :=
  let first := (records.head?.elim 0 List.length)
  let width := if first < names.length then names.length else first
  if records.all fun r => r.length ≤ width then
    .ok ⟨names, records.map fun r => (row width r).drop (width - names.length)⟩
  else .error .longRecord

def dropMark (s : String) : String :=
  match s.toList with
  | '\ufeff' :: rest => String.ofList rest
  | _ => s

def read (s : String) : Except Error Sheet := do
  match ← records (dropMark s) with
  | [] => throw .noColumns
  | header :: rest => sheet header rest

end FormulaGraph.Csv
