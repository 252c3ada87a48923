import FormulaGraph.Dependency.Cycle

/-!
The order of evaluation: the nodes of a dependency graph by generations. The first generation are
the nodes nothing depends on; each next one are the nodes that only earlier ones depend on. Read
backwards, dependencies come before what depends on them. A graph with a cycle has no such order.
-/

namespace FormulaGraph

namespace DependencyGraph

def inDegrees (g : DependencyGraph) : Table Nat :=
  ⟨g.nodes.entries.map fun e => (e.1, (g.edges.filter (·.target == e.1)).length), by
    simpa [Function.comp_def] using g.nodes.nodup⟩

/-- Takes away one edge that leads to `node`, which joins the next generation with its last one. -/
def release (state : Table Nat × List String) (node : String) : Table Nat × List String :=
  let degree := (state.1.get? node).getD 0 - 1
  (state.1.insert node degree, if degree = 0 then state.2 ++ [node] else state.2)

/-- The generation after `generation`, and how many edges are left. -/
def nextGeneration (g : DependencyGraph) (degrees : Table Nat) (generation : List String) :
    Table Nat × List String :=
  (generation.flatMap g.successors).foldl release (degrees, [])

/-- The nodes from a generation on, for at most `count` generations. -/
def generationsFrom (g : DependencyGraph) : Nat → Table Nat → List String → List String
  | 0, _, _ => []
  | _, _, [] => []
  | count + 1, degrees, generation =>
    let (degrees, next) := g.nextGeneration degrees generation
    generation ++ g.generationsFrom count degrees next

/-- The nodes by generations; nodes on a cycle, and those that only these lead to, are left out. -/
def byGenerations (g : DependencyGraph) : List String :=
  let degrees := g.inDegrees
  g.generationsFrom g.nodes.size degrees
    ((degrees.entries.filter (·.2 == 0)).map Prod.fst)

/-- The nodes with dependencies first, unless there is a cycle. -/
def dependenciesFirst? (g : DependencyGraph) : Option (List String) :=
  let nodes := g.byGenerations
  if nodes.length = g.nodes.size then some nodes.reverse else none

end DependencyGraph

/-- The identifiers with orders such that dependencies come first, or the cycles that prevent it.
What an identifier that is `known` depends on does not count. -/
def checkAcyclic (extend : String → String) (orders : Table Order) (known : String → Bool) :
    Except (List (List String)) (List String) :=
  let g := (DependencyGraph.ofOrders extend orders).cutKnown known
  match g.dependenciesFirst? with
  | some names => .ok (names.filter orders.contains)
  | none => .error g.cycles

end FormulaGraph
