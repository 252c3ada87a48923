import FormulaGraph.Dependency.Order
import FormulaGraph.Settings

/-!
The computation of all statistic values of a graph: find the entities, check that every base entity
has a value, read the computation orders, look for cycles, then evaluate the derived entities in
the order in which they were found.
-/

namespace FormulaGraph

/-- A store, the values supplied for it, and how to compute with them. -/
structure Engine where
  store : Store
  /-- The prefixes that entities, rules and values are read with. -/
  namespaces : Namespaces
  settings : Settings
  base : Table Value

inductive ComputationError where
  | discovery (cause : DiscoveryError)
  | missingBase (entity : Entity)
  /-- An identifier is that of a derived entity, its full form is not. -/
  | unknownOrder (uri : String)
  /-- The cycles found before anything was evaluated. -/
  | cyclicOrders (cycles : List (List String))
  | evaluation (cause : EvaluationError)

def ComputationError.message : ComputationError → String
  | discovery cause => cause.message
  | missingBase entity =>
    "Statistic value " ++ entity.uri ++ " is non-depending, but has no mapping."
  | unknownOrder uri => "no computation order of " ++ uri
  | cyclicOrders cycles => (EvaluationError.cyclic (cycles.headD [])).message
  | evaluation cause => cause.message

namespace Engine

/-- An engine that knows the prefixes of its store and, on top, those of its settings, unless other
ones are given. -/
def new (store : Store) (base : Table Value) (settings : Settings)
    (namespaces : Option Namespaces) : Engine where
  store
  namespaces := namespaces.getD
    ((Namespaces.ofTable store.namespaces.table).addAll settings.namespaces.entries)
  settings
  base

def discover (e : Engine) : Except DiscoveryError (Reported (Table Entity)) :=
  Entity.discover e.store e.namespaces e.settings.vocabulary

def orders (e : Engine) (entities : Table Entity) :
    Except DiscoveryError (Table (Option (List String))) :=
  Entity.orders entities e.store e.namespaces

def completeEntry : String × Option (List String) → Except ComputationError (String × Order)
  | (uri, some rules) => .ok (uri, rules.map Value.text)
  | (uri, none) => .error (.unknownOrder uri)

def complete (orders : Table (Option (List String))) : Except ComputationError (Table Order) :=
  Table.ofList <$> orders.entries.mapM completeEntry

def ofDiscovery {α : Type} : Except DiscoveryError α → Except ComputationError α
  | .ok a => .ok a
  | .error cause => .error (.discovery cause)

def validate (e : Engine) (entities : Table Entity) (base : Table Value) :
    Except ComputationError Unit :=
  match Entity.unsupplied? e.namespaces base entities with
  | some entity => .error (.missingBase entity)
  | none => .ok ()

/-- Evaluates identifiers in turn unless the table has a value for them, and adds their values. -/
def evaluateAll (s : Session) (values : Table Value) : List String →
    Except EvaluationError (Table Value)
  | [] => .ok values
  | uri :: rest =>
    if values.contains uri then evaluateAll s values rest
    else match s.resolve uri with
      | (.ok v, s) => evaluateAll s (values.insert uri v) rest
      | (.error e, _) => .error e

/-- The values supplied and those of all identifiers with orders, evaluated in turn. -/
def evaluateOrders (ns : Namespaces) (orders : Table Order) (supplied : Table Value) :
    Except EvaluationError (Table Value) :=
  evaluateAll (Session.new ns orders supplied) supplied orders.keys

/-- The supplied values, under the full form of their identifiers. -/
def supplied (e : Engine) : Table Value := e.base.mapKeys e.namespaces.extend

/-- The orders to evaluate, once every base entity is known to have a value. -/
def prepare (e : Engine) : Except ComputationError (Table Order) := do
  let entities := (← ofDiscovery e.discover).result
  e.validate entities e.base
  complete (← ofDiscovery (e.orders entities))

def check (e : Engine) (orders : Table Order) : Except ComputationError Unit :=
  if e.settings.eagerCheck.isTrue then
    match checkAcyclic e.namespaces.extend orders e.supplied.contains with
    | .ok _ => .ok ()
    | .error cycles => .error (.cyclicOrders cycles)
  else .ok ()

/-- The table of values: those supplied, then those computed. -/
def compute (e : Engine) : Except ComputationError (Table Value) := do
  let orders ← e.prepare
  e.check orders
  match evaluateOrders e.namespaces orders e.supplied with
  | .ok values => return values
  | .error cause => throw (.evaluation cause)

end Engine
end FormulaGraph
