import FormulaGraph.Dependency.Graph

/-!
The elementary cycles of a dependency graph: closed walks that pass no other node twice. Each is
given once, from its least node, with that node repeated at the end; shorter cycles come first.
-/

namespace FormulaGraph

namespace DependencyGraph

/-- One step backwards: the nodes that reach a set of nodes, and the set itself. -/
def widen (g : DependencyGraph) (allowed : String → Bool) (reached : List String) : List String :=
  reached ++ g.names.filter fun node =>
    allowed node && !reached.contains node && (g.successors node).any reached.contains

/-- The nodes that reach `start` by nodes that are not less than it. -/
def reaching (g : DependencyGraph) (start : String) : List String :=
  g.names.foldl (fun reached _ => g.widen (fun node => start ≤ node) reached) [start]

/-- The ways to close the walk `path`, given from its last node back to its first one, `start`,
through at most `steps` nodes among `allowed`. -/
def closings (g : DependencyGraph) (start : String) (allowed : List String) :
    Nat → List String → List (List String)
  | _, [] => []
  | steps, last :: earlier =>
    (g.successors last).flatMap fun node =>
      if node = start then [(start :: last :: earlier).reverse]
      else match steps with
        | 0 => []
        | steps + 1 =>
          if allowed.contains node && !(last :: earlier).contains node
          then closings g start allowed steps (node :: last :: earlier)
          else []

def cyclesFrom (g : DependencyGraph) (start : String) : List (List String) :=
  g.closings start (g.reaching start) g.nodes.size [start]

/-- The order of cycles: by length, then by their nodes. -/
def cycleLe (a b : List String) : Bool :=
  a.length < b.length || (a.length == b.length && !decide (b < a))

def cycles (g : DependencyGraph) : List (List String) :=
  (g.names.flatMap g.cyclesFrom).mergeSort cycleLe

end DependencyGraph
end FormulaGraph
