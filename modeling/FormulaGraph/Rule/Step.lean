import FormulaGraph.Arithmetic

/-!
Steps: what the rules of a computation order say. A computation order is a list of rules, each of
which takes the value computed so far to the next one.
-/

namespace FormulaGraph

/-- The comparisons of a conditional step. The third never holds. -/
inductive Comparison where
  | below
  | above
  | never
deriving DecidableEq

def Comparison.symbol : Comparison → Char
  | below => '<'
  | above => '>'
  | never => '|'

def Comparison.ofSymbol? (c : Char) : Option Comparison :=
  [below, above, never].find? (·.symbol = c)

inductive Term where
  | number (x : Float)
  | ref (name : String)

inductive Step where
  /-- Rounds the current value up. -/
  | roundUp
  /-- Raises the current value to a threshold. -/
  | atLeast (threshold : Float)
  /-- Chooses one of two numbers by comparing a value that is already known with a constant. -/
  | choose (ref : String) (comparison : Comparison) (constant thenValue elseValue : Float)
  /-- Takes a value that is already known. -/
  | reuse (ref : String)
  /-- An operation on the value of an identifier, which starts a chain, or on the current value. -/
  | chain (left : Option String) (op : Op) (right : Term)

namespace Term

def ref? : Term → Option String
  | ref name => some name
  | number _ => none

def mapRef (f : String → String) : Term → Term
  | ref name => ref (f name)
  | number x => number x

end Term

namespace Step

/-- The identifiers a step reads, from left to right. -/
def references : Step → List String
  | roundUp | atLeast _ => []
  | choose ref _ _ _ _ => [ref]
  | reuse ref => [ref]
  | chain left _ right => left.toList ++ right.ref?.toList

def mapRefs (f : String → String) : Step → Step
  | choose ref comparison constant thenValue elseValue =>
    choose (f ref) comparison constant thenValue elseValue
  | reuse ref => reuse (f ref)
  | chain left op right => chain (left.map f) op (right.mapRef f)
  | step => step

/-- The identifiers a step evaluates if they have no value yet: those of an arithmetic step. -/
def dependencies : Step → List String
  | step@(chain _ _ _) => step.references
  | _ => []

end Step
end FormulaGraph
