import FormulaGraph.Session

/-!
The graph of dependencies: an edge leads from an identifier to each one that an arithmetic step of
its order resolves. Steps that only read known values add no edges, rules that cannot be read
neither.
-/

namespace FormulaGraph

/-- An edge from an identifier to one it depends on, with the last rule that gave it. -/
structure Dependency where
  source : String
  target : String
  rule : Value

/-- Identifiers, with whether each has an order, and the dependencies between them. -/
structure DependencyGraph where
  nodes : Table Bool
  edges : List Dependency

/-- The number of nodes and edges, of nodes with and nodes without an order. -/
structure DependencySummary where
  nodes : Nat
  edges : Nat
  derived : Nat
  leaves : Nat

namespace DependencyGraph

/-- The edges with one more; an edge between the same nodes gets the new rule in its place. -/
def putEdge (e : Dependency) : List Dependency → List Dependency
  | [] => [e]
  | f :: rest =>
    if f.source = e.source ∧ f.target = e.target then e :: rest else f :: putEdge e rest

def addEdge (isDerived : String → Bool) (source : String) (rule : Value) (g : DependencyGraph)
    (target : String) : DependencyGraph where
  nodes := if g.nodes.contains target then g.nodes else g.nodes.insert target (isDerived target)
  edges := putEdge ⟨source, target, rule⟩ g.edges

def ruleDependencies (rule : Value) : List String :=
  match Step.ofRule rule with
  | .ok step => step.dependencies
  | .error _ => []

def addOrder (extend : String → String) (isDerived : String → Bool) (g : DependencyGraph)
    (entry : String × Order) : DependencyGraph :=
  let g := { g with nodes := g.nodes.insert entry.1 true }
  entry.2.foldl (fun g rule =>
    ((ruleDependencies rule).map extend).foldl (addEdge isDerived entry.1 rule) g) g

/-- The dependency graph of a table of orders, with references in the form `extend` gives them. -/
def ofOrders (extend : String → String) (orders : Table Order) : DependencyGraph :=
  orders.entries.foldl (addOrder extend orders.contains) ⟨Table.empty, []⟩

def names (g : DependencyGraph) : List String := g.nodes.keys

/-- What a node depends on, in the order in which the edges were added. -/
def successors (g : DependencyGraph) (node : String) : List String :=
  (g.edges.filter (·.source == node)).map (·.target)

def edgesByNode (g : DependencyGraph) : List Dependency :=
  g.names.flatMap fun node => g.edges.filter (·.source == node)

/-- The graph without the edges that leave nodes which `known` holds of. -/
def cutKnown (g : DependencyGraph) (known : String → Bool) : DependencyGraph :=
  { g with edges := g.edges.filter (!known ·.source) }

def summary (g : DependencyGraph) : DependencySummary :=
  let derived := (g.nodes.entries.filter (·.2)).length
  ⟨g.nodes.size, g.edges.length, derived, g.nodes.size - derived⟩

end DependencyGraph
end FormulaGraph
