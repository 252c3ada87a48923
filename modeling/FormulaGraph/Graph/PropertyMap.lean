import FormulaGraph.Graph.Query

/-!
Property maps: what the rows of a sheet say about one subject, grouped by predicate. A predicate
with one object maps to it, one with several to the list of them without repetitions. Predicates
are told apart as cells are, so that `1` and `1.0` are one predicate.
-/

namespace FormulaGraph

structure PropertyOptions where
  /-- Predicates in short rather than in full form. -/
  shortPredicates : Bool := true
  /-- Texts among the objects in short rather than in full form. -/
  shortObjects : Bool := true
  /-- The subject under a key of its own. -/
  withSubject : Bool := true

structure TripleColumns where
  subject : String := "s"
  predicate : String := "p"
  object : String := "o"

/-- What a subject has under each predicate, in the order in which the predicates come first. -/
structure PropertyMap where
  entries : List (Value × Value)
  distinct : (entries.map Prod.fst).Pairwise fun k l => k.eq l = false

inductive PropertyError where
  | column (cause : ColumnError)
  /-- A list or a record stands for a predicate. -/
  | unhashable

def PropertyError.message : PropertyError → String
  | column cause => cause.message
  | unhashable => "lists and records are no predicates"

namespace PropertyMap

/-- The entries with `value` under `key`: in the place of the entry of an equal key, which stays as
it is, or at the end. -/
def put (key value : Value) : List (Value × Value) → List (Value × Value)
  | [] => [(key, value)]
  | (k, w) :: rest => if k.eq key then (k, value) :: rest else (k, w) :: put key value rest

theorem map_fst_put (key value : Value) (entries : List (Value × Value)) :
    (put key value entries).map Prod.fst =
      if entries.any (·.1.eq key) then entries.map Prod.fst
      else entries.map Prod.fst ++ [key] := by
  induction entries with
  | nil => rfl
  | cons e rest ih =>
    obtain ⟨k, w⟩ := e
    by_cases h : k.eq key = true
    · simp [put, h]
    · simp only [put, h, List.any_cons, Bool.false_or]
      simp only [Bool.false_eq_true, if_false, List.map_cons, ih]
      split <;> rfl

theorem distinct_put {entries : List (Value × Value)} (key value : Value)
    (h : (entries.map Prod.fst).Pairwise fun k l => k.eq l = false) :
    ((put key value entries).map Prod.fst).Pairwise fun k l => k.eq l = false := by
  rw [map_fst_put]
  split
  · exact h
  · rename_i hk
    refine List.pairwise_append.2 ⟨h, List.pairwise_singleton _ _, fun k hm l hl => ?_⟩
    obtain ⟨e, he, rfl⟩ := List.mem_map.1 hm
    rw [List.mem_singleton.1 hl, ← Bool.not_eq_true]
    exact fun hk' => hk (List.any_eq_true.2 ⟨e, he, hk'⟩)

def empty : PropertyMap := ⟨[], List.Pairwise.nil⟩

instance : Inhabited PropertyMap := ⟨empty⟩

def insert (m : PropertyMap) (key value : Value) : PropertyMap :=
  ⟨put key value m.entries, distinct_put key value m.distinct⟩

def get? (m : PropertyMap) (key : Value) : Option Value :=
  (m.entries.find? (·.1.eq key)).map Prod.snd

def erase (m : PropertyMap) (key : Value) : PropertyMap :=
  ⟨m.entries.filter (!·.1.eq key), m.distinct.sublist (List.filter_sublist.map _)⟩

/-- The map with each predicate written as a text; the last one of a text counts. -/
def toTable (m : PropertyMap) : Table Value :=
  Table.ofList (m.entries.map fun e => (e.1.display, e.2))

def subjectKey : Value := .text "_idUri"

def format (ns : Namespaces) (short : Bool) (v : Value) : Value :=
  if short then ns.shortenValue v else ns.extendValue v

/-- The entry of a predicate that has the entry `old` and gets one more object. -/
def collect (old new : Value) : Value :=
  match old with
  | .list items => if items.any (·.eq new) then old else .list (items ++ [new])
  | old => if old.eq new then old else .list [old, new]

def addObject (m : PropertyMap) (key v : Value) : PropertyMap :=
  m.insert key ((m.get? key).elim v (collect · v))

/-- Adds what one row says. Missing objects say nothing. -/
def addRow (ns : Namespaces) (options : PropertyOptions) (m : PropertyMap)
    (row : Value × Value) : Except PropertyError PropertyMap :=
  if row.2.isMissing then .ok m
  else if !row.1.isHashable then .error .unhashable
  else .ok (addObject m (format ns options.shortPredicates row.1)
    (format ns options.shortObjects row.2))

def place (sheet : Sheet) (name : String) : Except PropertyError Nat :=
  match sheet.column? name with
  | some place => .ok place
  | none => .error (.column (.lostColumn name))

/-- Which rows are about a subject given in full form; all rows are if the sheet has no column for
subjects. -/
def about (sheet : Sheet) (columns : TripleColumns) (subject : Value) :
    Except PropertyError (List Bool) :=
  match sheet.column? columns.subject with
  | none => .ok (sheet.rows.map fun _ => true)
  | some place =>
    match Column.matching ⟨.mixed, sheet.rows.map (Sheet.cell · place)⟩ subject with
    | .ok mask => .ok mask
    | .error cause => .error (.column cause)

/-- The predicates and objects of the rows of a subject given in full form. -/
def rowsOf (sheet : Sheet) (columns : TripleColumns) (subject : Value) :
    Except PropertyError (List (Value × Value)) := do
  let mask ← about sheet columns subject
  let p ← place sheet columns.predicate
  let o ← place sheet columns.object
  return (sheet.rows.zip mask).filterMap fun (row, chosen) =>
    if chosen then some (Sheet.cell row p, Sheet.cell row o) else none

/-- The property map of a subject, given in short or full form. -/
def build (ns : Namespaces) (options : PropertyOptions) (columns : TripleColumns)
    (sheet : Sheet) (subject : Value) : Except PropertyError PropertyMap := do
  let subject := ns.extendValue subject
  let rows ← rowsOf sheet columns subject
  let m ← rows.foldlM (addRow ns options) empty
  return if options.withSubject then m.insert subjectKey subject else m

/-- The forms under which a predicate may be a key, in the order in which they are tried. -/
def forms (ns : Namespaces) (predicate : Value) : List Value :=
  [predicate, ns.shortenValue predicate, ns.extendValue predicate]

def property (ns : Namespaces) (m : PropertyMap) (predicate : Value) :
    Except PropertyError (Option Value) :=
  if predicate.isHashable then .ok ((forms ns predicate).findSome? m.get?) else .error .unhashable

def eraseProperty (ns : Namespaces) (m : PropertyMap) (predicate : Value) : PropertyMap :=
  (forms ns predicate).foldl erase m

end PropertyMap
end FormulaGraph
