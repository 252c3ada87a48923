import FormulaGraph.Graph.PropertyMap
import FormulaGraph.Rule.Normal
import FormulaGraph.Session

/-!
Statistic values: the entities of a type that a graph describes. A base entity gets its value from
the caller; a derived one names a resource that lists the rules of its computation order, one under
each predicate that ends in a low line and a number.
-/

namespace FormulaGraph

structure Entity where
  /-- The identifier in full form. -/
  uri : String
  /-- The resource that lists the rules, for a derived entity. -/
  computationOrder : Option Value
  /-- What else the graph says about the entity. -/
  properties : PropertyMap

/-- The names that entities are found by, which may be any values. -/
structure Vocabulary where
  entityType : Value := .text "kno:StatisticValue"
  orderPredicate : Value := .text "kno:computationOrder"

inductive DiscoveryError where
  | column (cause : ColumnError)
  | property (cause : PropertyError)
  /-- The number of a step has more digits than are read. -/
  | longIndex (digits : Nat)

def indexDigits : Nat := Text.digitLimit

def DiscoveryError.message : DiscoveryError → String
  | column cause => cause.message
  | property cause => cause.message
  | longIndex digits =>
    "Exceeds the limit (" ++ toString indexDigits ++ " digits) for integer string conversion: " ++
      "value has " ++ toString digits ++ " digits; use sys.set_int_max_str_digits() to " ++
      "increase the limit"

structure Reported (α : Type) where
  result : α
  warnings : List String

namespace Entity

def typePredicate : String := "rdf:type"

def orderKey : Value := .text "computation_order"

def isDerived (e : Entity) : Bool := e.computationOrder.isSome

def record (e : Entity) : PropertyMap :=
  let named := e.properties.insert PropertyMap.subjectKey (.text e.uri)
  match e.computationOrder with
  | some order => named.insert orderKey order
  | none => named

def text (e : Entity) : String :=
  "StatisticValue(" ++ Text.quoted e.uri ++ ", " ++
    (if e.isDerived then "derived" else "base") ++ ")"

def firstOf : Value → Value
  | .list (v :: _) => v
  | v => v

def orderWarning? (uri : String) : Option Value → Option String
  | some (.list orders) =>
    some (uri ++ " has " ++ toString orders.length ++ " computation orders; using the first")
  | _ => none

def ask (store : Store) (patterns : List Pattern) : Except DiscoveryError Sheet :=
  match store.solve patterns with
  | .ok sheet => .ok sheet
  | .error cause => .error (.column cause)

def ofProperty {α : Type} : Except PropertyError α → Except DiscoveryError α
  | .ok a => .ok a
  | .error cause => .error (.property cause)

/-- The entity that the rows of a sheet describe, and what is to be warned of. -/
def ofRows (ns : Namespaces) (orderPredicate : Value) (sheet : Sheet) (uri : String) :
    Except DiscoveryError (Reported Entity) := do
  let options : PropertyOptions := { withSubject := false }
  let properties ← ofProperty (PropertyMap.build ns options {} sheet (.text uri))
  let order ← ofProperty (PropertyMap.property ns properties orderPredicate)
  return ⟨⟨uri, order.map fun v => ns.extendValue (firstOf v),
      PropertyMap.eraseProperty ns properties orderPredicate⟩,
    (orderWarning? uri order).toList⟩

/-- The patterns whose answer holds everything said about the entities of a type. -/
def discoveryPatterns (entityType : Value) : List Pattern := [
  ⟨.var "s", .var "p", .var "o"⟩,
  ⟨.var "s", .ofValue (.text typePredicate), .ofValue entityType⟩]

/-- The entities of a store by identifier, in the order in which the store names them first. -/
def discover (store : Store) (ns : Namespaces) (vocabulary : Vocabulary) :
    Except DiscoveryError (Reported (Table Entity)) := do
  let sheet ← ask store (discoveryPatterns vocabulary.entityType)
  let subjects := (sheet.rows.map fun row => (Sheet.cell row 0).display).eraseDups
  let found ← subjects.mapM fun s => ofRows ns vocabulary.orderPredicate sheet (ns.extend s)
  return ⟨Table.ofList (found.map fun r => (r.result.uri, r.result)), found.flatMap (·.warnings)⟩

/-- The digits at the end of a predicate, behind a low line. A line feed may follow. -/
def indexDigits? : Value → Option (List Char)
  | .text predicate =>
    let reversed := (Text.dropFinalLineFeed predicate.toList).reverse
    let digits := (reversed.takeWhile Text.isDigit).reverse
    match reversed.dropWhile Text.isDigit with
    | '_' :: _ => if digits.isEmpty then none else some digits
    | _ => none
  | _ => none

def readIndex (digits : List Char) : Except DiscoveryError Nat :=
  if digits.length ≤ indexDigits then .ok (Text.readDigits 0 digits)
  else .error (.longIndex digits.length)

def stepWarning? (uri : String) (predicate : Value) : Value → Option String
  | .list rules =>
    some ("Step " ++ predicate.display ++ " of " ++ uri ++ " has " ++ toString rules.length ++
      " rules; using the first")
  | _ => none

/-- The entries of a property map that are steps, with the digits of their numbers. -/
def numbered (m : PropertyMap) : List (List Char × Value × Value) :=
  m.entries.filterMap fun e => (indexDigits? e.1).map (·, e)

/-- The rules that a property map lists, by increasing step number. -/
def steps (m : PropertyMap) : Except DiscoveryError (List (Nat × String)) := do
  let found ← (numbered m).mapM fun (digits, _, rule) => do
    return (← readIndex digits, (firstOf rule).display)
  return found.mergeSort fun a b => a.1 ≤ b.1

def orderPattern (order : Value) : Pattern :=
  ⟨.ofValue order, .var "p", .var "o"⟩

def rulesOf (store : Store) (ns : Namespaces) (uri : String) (order : Value) :
    Except DiscoveryError (Reported (List String)) := do
  let options : PropertyOptions := { shortObjects := false, withSubject := false }
  let sheet ← ask store [orderPattern order]
  let m ← ofProperty (PropertyMap.build ns options {} sheet order)
  let rules := (← steps m).map Prod.snd
  let repeated := (numbered m).filterMap fun (_, predicate, rule) =>
    stepWarning? uri predicate rule
  return ⟨rules.map (Rule.normalizeText ns.extend),
    repeated ++ rules.flatMap fun rule => Rule.warnings (.text rule)⟩

/-- The rules of a derived entity, given in short or full form; none for any other identifier. -/
def orderFor (entities : Table Entity) (store : Store) (ns : Namespaces) (uri : String) :
    Except DiscoveryError (Option (Reported (List String))) :=
  match (entities.get? (ns.extend uri)).bind fun e => e.computationOrder.map (e.uri, ·) with
  | some (uri, order) => some <$> rulesOf store ns uri order
  | none => .ok none

/-- The rules of every derived entity by identifier. An identifier whose full form is not that of a
derived entity has none. -/
def orders (entities : Table Entity) (store : Store) (ns : Namespaces) :
    Except DiscoveryError (Table (Option (List String))) := do
  let derived := entities.keys.filter fun uri => (entities.get? uri).any isDerived
  let found ← derived.mapM fun uri => do
    return (ns.extend uri, (← orderFor entities store ns uri).map (·.result))
  return Table.ofList found

/-- Whether a base entity has a value among the supplied ones, under its short or full form. -/
def isSupplied (ns : Namespaces) (base : Table Value) (uri : String) : Bool :=
  (base.keys.any fun key => ns.extend key = ns.extend uri) || base.contains (ns.shorten uri)

def unsupplied? (ns : Namespaces) (base : Table Value) (entities : Table Entity) :
    Option Entity :=
  (entities.entries.find? fun (uri, entity) =>
    !entity.isDerived && !isSupplied ns base uri).map Prod.snd

end Entity
end FormulaGraph
