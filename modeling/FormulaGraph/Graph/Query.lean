import FormulaGraph.Graph.Store

/-!
Queries: basic graph patterns. The answer to a list of triple patterns has one row for each way to
choose a stored triple for every pattern such that constants match and the cells of one variable
have equal comparison keys; it shows the cell of each variable's first occurrence. Cells are
compared by columns, so a query whose columns do not go together is refused. How columns are
compared is a parameter; the queries of a store compare them by kind.
-/

namespace FormulaGraph

/-- How the cells of columns are compared. Any of it may be refused. -/
structure Comparer where
  /-- The column of some cells. -/
  column : List Value → Except ColumnError Column
  /-- Which cells match a constant. -/
  matching : Column → Value → Except ColumnError (List Bool)
  /-- Which cells equal the text in the same row. -/
  matchingTexts : Column → List String → Except ColumnError (List Bool)
  /-- Two columns in the form in which they are joined. -/
  unify : Column → Column → Except ColumnError (Column × Column)

def Comparer.byKind : Comparer where
  column cells := .ok (Column.ofCells cells)
  matching := Column.matching
  matchingTexts := Column.matchingTexts
  unify := Column.unify

inductive PatternTerm where
  | var (name : String)
  | const (v : Value)

structure Pattern where
  subject : PatternTerm
  predicate : PatternTerm
  object : PatternTerm

/-- Whether a term is a variable: a question mark and a name. -/
def isVariable : Value → Bool
  | .text s => match s.toList with
    | '?' :: _ :: _ => true
    | _ => false
  | _ => false

namespace PatternTerm

def ofValue (v : Value) : PatternTerm :=
  match v with
  | .text s => if isVariable v then var (String.ofList (s.toList.drop 1)) else const v
  | v => const v

def var? : PatternTerm → Option String
  | var name => some name
  | const _ => none

end PatternTerm

namespace Pattern

def ofTerms : List Value → Except StoreError Pattern
  | [s, p, o] => .ok ⟨.ofValue s, .ofValue p, .ofValue o⟩
  | terms => .error (if Value.areWritable terms then .patternArity terms else .longInteger)

def terms (q : Pattern) : List PatternTerm := [q.subject, q.predicate, q.object]

/-- The variables of a pattern, each where it occurs first. -/
def vars (q : Pattern) : List String := (q.terms.filterMap (·.var?)).eraseDups

def select (triples : List Triple) (mask : List Bool) : List Triple :=
  (triples.zip mask).filterMap fun (t, chosen) => if chosen then some t else none

/-- Which cells match a term: all of them a variable; a constant those that its comparison key
equals in the column made of them. -/
def termMatches (c : Comparer) (ns : Namespaces) (column : List Value → Except ColumnError Column)
    (cells : List Value) : PatternTerm → Except ColumnError (List Bool)
  | .var _ => .ok (cells.map fun _ => true)
  | .const v => do c.matching (← column cells) (ns.comparisonKey v)

/-- Which triples have the constants of a pattern. Subjects and predicates are compared as they are
stored, objects by their comparison keys. -/
def constantsMatch (c : Comparer) (ns : Namespaces) (triples : List Triple) (q : Pattern) :
    Except ColumnError (List Bool) := do
  let names (cells : List Value) : Except ColumnError Column := .ok ⟨.mixed, cells⟩
  let keys (cells : List Value) := c.column (cells.map ns.comparisonKey)
  let subjects ← termMatches c ns names (triples.map (·.cell 0)) q.subject
  let predicates ← termMatches c ns names (triples.map (·.cell 1)) q.predicate
  let objects ← termMatches c ns keys (triples.map (·.cell 2)) q.object
  return List.zipWith and (List.zipWith and subjects predicates) objects

/-- The places that hold the variable of an earlier place, each behind the first such place. -/
def repetitions (q : Pattern) : List (Nat × Nat) :=
  match q.terms.map PatternTerm.var? with
  | [s, p, o] =>
    if p.isSome && s == p then (0, 1) :: if o == p then [(0, 2)] else []
    else if o.isSome && s == o then [(0, 2)]
    else if o.isSome && p == o then [(1, 2)]
    else []
  | _ => []

/-- The triples in which two places have the same comparison key, the first one a text. -/
def whereSame (c : Comparer) (ns : Namespaces) (triples : List Triple) (places : Nat × Nat) :
    Except ColumnError (List Triple) := do
  let column ← c.column (triples.map fun t => ns.comparisonKey (t.cell places.2))
  let names := triples.map fun t => ns.extend (Text.trim (t.name places.1))
  return select triples (← c.matchingTexts column names)

def matching (c : Comparer) (s : Store) (q : Pattern) : Except ColumnError (List Triple) := do
  let chosen := select s.triples (← constantsMatch c s.namespaces s.triples q)
  q.repetitions.foldlM (whereSame c s.namespaces) chosen

def bindings (q : Pattern) (t : Triple) : List (String × Value) :=
  (q.terms.zip t.cells).filterMap fun (term, cell) => term.var?.map (·, cell)

def row (q : Pattern) (t : Triple) : List Value :=
  q.vars.map fun name => ((q.bindings t).lookup name).getD .missing

def sheet (q : Pattern) (triples : List Triple) : Sheet := ⟨q.vars, triples.map q.row⟩

end Pattern

namespace Sheet

def keys (c : Comparer) (ns : Namespaces) (sheet : Sheet) (name : String) :
    Except ColumnError Column :=
  let place := (sheet.column? name).getD 0
  c.column (sheet.rows.map fun row => ns.comparisonKey (cell row place))

/-- The name under which a join puts the keys of a column. -/
def keyName (name : String) : String := "__key_" ++ name

def placesOf (sheet : Sheet) (test : String → Bool) : List Nat :=
  (List.range sheet.columns.length).filter fun place => test (sheet.columns.getD place "")

/-- The rows of two sheets with keys put together where the keys agree, each row of the first with
all rows of the second in turn. -/
def pair (left right : List (List Value × List Value)) : List (List Value) :=
  left.flatMap fun l => (right.filter fun r => rowsAgree l.1 r.1).map fun r => l.2 ++ r.2

/-- The rows of two sheets put together where their common columns have agreeing keys. The cells of
the first are kept in the common columns. A column with the name of one of keys gives way to it and
is lost, unless it is common itself, which is refused. -/
def join (c : Comparer) (ns : Namespaces) (left right : Sheet) : Except ColumnError Sheet := do
  let shared := right.columns.filter left.columns.contains
  let leftKeys ← shared.mapM (left.keys c ns)
  let rightKeys ← shared.mapM (right.keys c ns)
  let keyNames := shared.map keyName
  if let some name := keyNames.find? shared.contains then throw (.lostColumn name)
  let unified ← (leftKeys.zip rightKeys).mapM fun (a, b) => c.unify a b
  let leftRows := Column.rows left.rows.length (unified.map Prod.fst)
  let rightRows := Column.rows right.rows.length (unified.map Prod.snd)
  if !left.rows.isEmpty && !right.rows.isEmpty &&
    !(leftRows ++ rightRows).all (·.all Value.isHashable) then throw .unhashable
  let kept := left.placesOf (!keyNames.contains ·)
  let added := right.placesOf fun name => !shared.contains name && !keyNames.contains name
  let named (sheet : Sheet) (places : List Nat) := places.map (sheet.columns.getD · "")
  let only (sheet : Sheet) (places : List Nat) := sheet.rows.map fun row => places.map (cell row)
  return ⟨named left kept ++ named right added,
    pair (leftRows.zip (only left kept)) (rightRows.zip (only right added))⟩

def project (sheet : Sheet) (names : List String) : Except ColumnError Sheet := do
  let places ← names.mapM fun name =>
    match sheet.column? name with
    | some place => .ok place
    | none => .error (.lostColumn name)
  return ⟨names, sheet.rows.map fun row => places.map (cell row)⟩

end Sheet

namespace Store

/-- Joins what has been found so far with the answers to patterns, from left to right, until
nothing is left. A pattern without variables only decides whether to go on. -/
def joinAll (c : Comparer) (s : Store) (found : Option Sheet) :
    List Pattern → Except ColumnError (Option Sheet)
  | [] => .ok found
  | q :: rest => do
    let triples ← q.matching c s
    if q.vars.isEmpty then
      if triples.isEmpty then return none else joinAll c s found rest
    else match found with
      | none => joinAll c s (some (q.sheet triples)) rest
      | some left =>
        let joined ← left.join c s.namespaces (q.sheet triples)
        if joined.rows.isEmpty then return none else joinAll c s (some joined) rest

/-- The answer to patterns: one column for each variable, and no row twice. -/
def solveBy (c : Comparer) (s : Store) (patterns : List Pattern) : Except ColumnError Sheet := do
  let columns := (patterns.flatMap Pattern.vars).eraseDups
  let found ← s.joinAll c none patterns
  match found.filter (!·.rows.isEmpty) with
  | none => return Sheet.ofColumns columns
  | some sheet =>
    let answer ← sheet.project columns
    if answer.rows.all (·.all Value.isHashable) then
      return ⟨columns, Sheet.dropRepeated answer.rows⟩
    else throw .unhashable

def queryBy (c : Comparer) (s : Store) (patterns : List (List Value)) :
    Except StoreError Sheet := do
  if patterns.isEmpty then throw .emptyQuery
  let patterns ← patterns.mapM Pattern.ofTerms
  match s.solveBy c patterns with
  | .ok sheet => return sheet
  | .error cause => throw (.column cause)

def solve (s : Store) (patterns : List Pattern) : Except ColumnError Sheet :=
  s.solveBy .byKind patterns

def query (s : Store) (patterns : List (List Value)) : Except StoreError Sheet :=
  s.queryBy .byKind patterns

end Store
end FormulaGraph
