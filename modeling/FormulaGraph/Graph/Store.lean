import FormulaGraph.Graph.Column
import FormulaGraph.Graph.Sheet
import FormulaGraph.Namespaces

/-!
Triple stores: triples of subject, predicate and object in order of insertion. Subjects and
predicates are texts in full form; an object is kept as it was given. Of triples that say the same,
the first is kept.
-/

namespace FormulaGraph

structure Triple where
  subject : String
  predicate : String
  object : Value

/-- Triples in order of insertion, and the namespaces that identifiers are read with. -/
structure Store where
  namespaces : Namespaces
  triples : List Triple

inductive StoreError where
  | tripleArity (terms : List Value)
  | patternArity (terms : List Value)
  /-- An integer has too many digits to be written. -/
  | longInteger
  | emptyQuery
  | missingColumns (names : List String)
  | column (cause : ColumnError)

def StoreError.message : StoreError → String
  | tripleArity terms => "triple must have 3 terms: " ++ Value.tupleText terms
  | patternArity terms => "triple pattern must have 3 terms: " ++ Value.tupleText terms
  | longInteger => Value.longIntegerText
  | emptyQuery => "query needs at least one triple pattern"
  | missingColumns names =>
    "triple table missing columns: " ++ Value.literal (.list (names.map .text))
  | column cause => cause.message

namespace Triple

/-- A subject or predicate, written as text, trimmed and in full form. -/
def readName (ns : Namespaces) (v : Value) : Except StoreError String :=
  if v.isWritable then .ok (ns.extend (Text.trim v.display)) else .error .longInteger

def ofTerms (ns : Namespaces) : List Value → Except StoreError Triple
  | [s, p, o] => do return ⟨← readName ns s, ← readName ns p, o⟩
  | terms => .error (if Value.areWritable terms then .tripleArity terms else .longInteger)

/-- What a triple says: subject, predicate, and kind and text of the object in its comparison
form. -/
def content (ns : Namespaces) (t : Triple) : String × String × String × String :=
  (t.subject, t.predicate, t.object.kind, (ns.comparisonKey t.object).display)

def cells (t : Triple) : List Value := [.text t.subject, .text t.predicate, t.object]

/-- The subject, which has place `0`, or the predicate. -/
def name (t : Triple) (place : Nat) : String := if place = 0 then t.subject else t.predicate

def cell (t : Triple) (place : Nat) : Value := t.cells.getD place .missing

end Triple

def dropRepeatedBy {α β : Type} [BEq β] (key : α → β) (xs : List α) : List α :=
  (xs.foldl (fun (kept : List (β × α)) x =>
    let k := key x
    if kept.any (·.1 == k) then kept else (k, x) :: kept) []).reverse.map Prod.snd

namespace Store

def columns : List String := ["subject", "predicate", "object"]

def empty (ns : Namespaces) : Store := ⟨ns, []⟩

def size (s : Store) : Nat := s.triples.length

def dropRepeated (ns : Namespaces) (triples : List Triple) : List Triple :=
  dropRepeatedBy (Triple.content ns) triples

/-- The triples without repetitions; their objects are written to compare them. -/
def distinct (ns : Namespaces) (triples : List Triple) : Except StoreError (List Triple) :=
  if triples.all (·.object.isWritable) then .ok (dropRepeated ns triples) else .error .longInteger

def addPrefix (s : Store) (name uri : String) : Store :=
  { s with namespaces := s.namespaces.add name uri }

end Store

/-- A call on a store, which keeps what it did when it breaks off. -/
abbrev Loading := ExceptT StoreError (StateM Store)

namespace Loading

def need {α : Type} : Except StoreError α → Loading α
  | .ok a => pure a
  | .error e => throw e

/-- Adds triples after those in the store, and tells by how many it has grown. Adding none leaves
the store as it is. -/
def addTriples (rows : List (List Value)) : Loading Int := do
  let s ← get
  let new ← need (rows.mapM (Triple.ofTerms s.namespaces))
  if new.isEmpty then return 0
  let triples ← need (Store.distinct s.namespaces (s.triples ++ new))
  set { s with triples }
  return (triples.length : Int) - s.triples.length

def add (terms : List Value) : Loading Unit := do
  let _ ← addTriples [terms]

end Loading

namespace Store

def addTriples (s : Store) (rows : List (List Value)) : Except StoreError Int × Store :=
  (Loading.addTriples rows).run s

def add (s : Store) (terms : List Value) : Except StoreError Unit × Store :=
  (Loading.add terms).run s

/-- The store of the rows of a sheet with the columns of a triple table, in any order and among
others. Rows without a subject are left out. -/
def ofSheet (ns : Namespaces) (sheet : Sheet) : Except StoreError Store :=
  match columns.map sheet.column? with
  | [some s, some p, some o] =>
    let rows := sheet.rows.filter fun row => !(Sheet.cell row s).isMissing
    match (empty ns).addTriples
      (rows.map fun row => [Sheet.cell row s, Sheet.cell row p, Sheet.cell row o]) with
    | (.ok _, store) => .ok store
    | (.error cause, _) => .error cause
  | _ =>
    let absent := columns.filter fun name => !sheet.columns.contains name
    .error (.missingColumns (absent.mergeSort fun a b => a ≤ b))

def toSheet (s : Store) : Sheet := ⟨columns, s.triples.map Triple.cells⟩

def text (s : Store) : String := "TripleStore(triples=" ++ toString s.size ++ ")"

end Store
end FormulaGraph
