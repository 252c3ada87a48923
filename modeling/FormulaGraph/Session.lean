import FormulaGraph.Rule.Normal

/-!
Sessions: the evaluation of computation orders on demand. A session owns a table of values, the
orders of the identifiers that have one, and the stack of identifiers under evaluation. Resolving
an identifier looks its value up, or evaluates its order and keeps the result, so that no
identifier is evaluated twice; an identifier that is on the stack already closes a cycle.
-/

namespace FormulaGraph

/-- A computation order: its rules in order. Only texts are rules that can be read. -/
abbrev Order := List Value

structure Session where
  namespaces : Namespaces
  orders : Table Order
  values : Table Value
  /-- The identifiers under evaluation, the outermost first. -/
  inProgress : List String
  /-- How many orders were begun. -/
  evaluations : Nat

/-- Where an evaluation stood when a rule failed. -/
structure Context where
  values : Table Value
  /-- The rule, missing if there was none. -/
  rule : Value
  /-- The value before the rule, or what the rule made of it. -/
  last : Value
  rules : Order
  /-- The identifier whose order was under evaluation. -/
  owner : Option String

inductive RuleFault where
  | malformed (cause : RuleError)
  | noRules
  | noResult
  | notComputed (key : String)

def RuleFault.message (context : Context) : RuleFault → String
  | malformed cause => cause.message
  | noRules =>
    let owner := context.owner.getD ""
    "Computation order of " ++ (if owner.isEmpty then "statistic value" else owner) ++
      " has no rules."
  | noResult =>
    "Invalid computationRule found or you tried to use 2 value computation " ++
      "but had a result already."
  | notComputed key =>
    "Value " ++ key ++ " referenced by rule " ++ context.rule.literal ++ " is not computed yet."

inductive EvaluationError where
  | invalidRule (fault : RuleFault) (context : Context)
  | undefinedOrder (key : String) (orders : Table Order)
  /-- The identifiers of a cycle, the first one repeated at the end. -/
  | cyclic (cycle : List String)
  | arithmetic (cause : ArithmeticError)
  /-- A value has an integer with too many digits to be written. -/
  | longInteger
  /-- Evaluations nest deeper than there are orders, which does not happen. -/
  | tooDeep

def EvaluationError.message : EvaluationError → String
  | invalidRule fault context => fault.message context
  | undefinedOrder key _ => "Computation order for " ++ key ++ " is undefined."
  | cyclic cycle => "Cyclic computation order: " ++ " -> ".intercalate cycle
  | arithmetic cause => cause.message
  | longInteger => Value.longIntegerText
  | tooDeep => "evaluation nested too deep"

/-- Evaluation in a session, which keeps what it did when it breaks off. -/
abbrev Evaluation := ExceptT EvaluationError (StateM Session)

namespace Session

/-- A session with the given orders and values, under the full form of their identifiers. -/
def new (namespaces : Namespaces) (orders : Table Order) (values : Table Value) : Session where
  namespaces
  orders := orders.mapKeys namespaces.extend
  values := values.mapKeys namespaces.extend
  inProgress := []
  evaluations := 0

def push (s : Session) (key : String) : Session := { s with inProgress := s.inProgress ++ [key] }

def pop (s : Session) : Session := { s with inProgress := s.inProgress.dropLast }

def count (s : Session) : Session := { s with evaluations := s.evaluations + 1 }

def store (s : Session) (key : String) (v : Value) : Session :=
  { s with values := s.values.insert key v }

/-- The session with a prefix registered; the identifiers it holds stay as they are. -/
def addPrefix (s : Session) (name uri : String) : Session :=
  { s with namespaces := s.namespaces.add name uri }

/-- The cycle that reaching `key` closes. -/
def cycleAt (s : Session) (key : String) : List String :=
  s.inProgress.dropWhile (· != key) ++ [key]

end Session

namespace Evaluation

def ofArithmetic {α : Type} : Except ArithmeticError α → Evaluation α
  | .ok a => pure a
  | .error e => throw (.arithmetic e)

/-- Runs an evaluation with an identifier on top of the stack, and takes it off again whether the
evaluation ends with a value or an error. -/
def within {α : Type} (key : String) (body : Evaluation α) : Evaluation α :=
  ExceptT.mk fun s =>
    let (result, s) := body.run (s.push key)
    (result, s.pop)

def fail {α : Type} (fault : RuleFault) (rule last : Value) (rules : Order)
    (owner : Option String) : Evaluation α := do
  let s ← get
  throw (.invalidRule fault ⟨s.values, rule, last, rules, owner⟩)

/-- The value an identifier has already; nothing is evaluated for it. -/
def lookup (ref : String) (rule last : Value) (rules : Order) (owner : Option String) :
    Evaluation Value := do
  let s ← get
  let key := s.namespaces.extend ref
  match s.values.get? key with
  | some v => return v
  | none => fail (.notComputed key) rule last rules owner

/-- Whether a comparison of a value with a constant holds; it never does for what is no number. -/
def holds (comparison : Comparison) (v : Value) (constant : Float) :
    Except ArithmeticError Bool := do
  match ← v.operand? with
  | some (.number q) =>
    return match comparison with
      | .below => q.lt (.real constant)
      | .above => (Quantity.real constant).lt q
      | .never => false
  | _ => return false

def isAbsent : Value → Bool
  | .missing => true
  | _ => false

def leftValue (resolve : String → Evaluation Value) (last : Value) :
    Option String → Evaluation Value
  | some ref => resolve ref
  | none => pure last

def termValue (resolve : String → Evaluation Value) : Term → Evaluation Value
  | .ref name => resolve name
  | .number y => pure (.float y)

/-- What a step makes of the current value, missing if nothing. A step that starts a chain wants no
current value, one that continues it wants one. -/
def applyStep (resolve : String → Evaluation Value) (rules : Order) (owner : Option String)
    (rule last : Value) : Step → Evaluation Value
  | .roundUp => ofArithmetic (roundUp last)
  | .atLeast threshold => ofArithmetic (maxOf last (.real threshold))
  | .choose ref comparison constant thenValue elseValue => do
    let v ← lookup ref rule last rules owner
    return .float (if ← ofArithmetic (holds comparison v constant) then thenValue else elseValue)
  | .reuse ref => lookup ref rule last rules owner
  | .chain left op right => do
    if left.isSome != isAbsent last then return .missing
    let x ← leftValue resolve last left
    let y ← termValue resolve right
    ofArithmetic (computeValue x (some op) y)

def runRule (resolve : String → Evaluation Value) (rules : Order) (owner : Option String)
    (last rule : Value) : Evaluation Value :=
  match Step.ofRule rule with
  | .error cause => fail (.malformed cause) rule last rules owner
  | .ok step => do
    let v ← applyStep resolve rules owner rule last step
    if isAbsent v then fail .noResult rule v rules owner else return v

def execute (resolve : String → Evaluation Value) (rules : Order) (owner : Option String) :
    Evaluation Value := do
  modify Session.count
  if rules.isEmpty then fail .noRules .missing .missing rules owner
  else rules.foldlM (runRule resolve rules owner) .missing

/-- Stores the value of an identifier and logs it, for which it has to be written. -/
def keep (key : String) (v : Value) : Evaluation Value := do
  modify (·.store key v)
  if v.isWritable then return v else throw .longInteger

/-- The value of an identifier, with evaluations nested less than `depth` deep. -/
def resolve : Nat → String → Evaluation Value
  | 0, _ => throw .tooDeep
  | depth + 1, identifier => do
    let s ← get
    let key := s.namespaces.extend identifier
    match s.values.get? key with
    | some v => return v
    | none =>
      match s.orders.get? key with
      | none => throw (.undefinedOrder key s.orders)
      | some rules =>
        if s.inProgress.contains key then throw (.cyclic (s.cycleAt key))
        else do
          let v ← within key (execute (resolve depth) rules (some key))
          keep key v

end Evaluation

namespace Session

/-- How deep evaluations may nest: one level for each order, and one that finds a cycle. -/
def depth (s : Session) : Nat := s.orders.size + 1

/-- The value of an identifier, evaluated if need be, and the session afterwards. -/
def resolve (s : Session) (identifier : String) : Except EvaluationError Value × Session :=
  (Evaluation.resolve s.depth identifier).run s

def execute (s : Session) (rules : Order) (owner : Option String) :
    Except EvaluationError Value × Session :=
  (Evaluation.execute (Evaluation.resolve s.depth) rules owner).run s

end Session

/-- The value of a computation order in a session of its own. -/
def executeOrder (namespaces : Namespaces) (rules : Order) (values : Table Value)
    (orders : Table Order) : Except EvaluationError Value :=
  ((Session.new namespaces orders values).execute rules none).1

end FormulaGraph
