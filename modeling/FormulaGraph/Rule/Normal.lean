import FormulaGraph.Rule.Parser
import FormulaGraph.Namespaces

/-!
Writing rules, and the normal form of a rule: the same step with its identifiers in full form. A
rule that has no step is kept, so that its error shows when it is evaluated.
-/

namespace FormulaGraph

namespace Step

/-- A number in a rule: integers without a point, others as the shortest text that reads back. -/
def numberText (x : Float) : String :=
  match Double.toInt? x with
  | some n => toString n
  | none => Value.floatText x

def toText : Step → String
  | roundUp => "ROUNDUP"
  | atLeast threshold => "MAX(result," ++ numberText threshold ++ ")"
  | choose ref comparison constant thenValue elseValue =>
    "IF([" ++ ref ++ "] " ++ comparison.symbol.toString ++ " " ++ numberText constant ++ ", " ++
      numberText thenValue ++ ", " ++ numberText elseValue ++ ")"
  | reuse ref => "[" ++ ref ++ "]"
  | chain left op right =>
    let leftText := match left with
      | some ref => "[" ++ ref ++ "]"
      | none => ""
    let rightText := match right with
      | .ref name => "[" ++ name ++ "]"
      | .number x => numberText x
    leftText ++ op.symbol.toString ++ rightText

/-- What is worth a warning about a step read from a rule: a comparison that never holds. -/
def warning? (rule : String) : Step → Option String
  | choose _ .never _ _ _ =>
    some ("IF rule uses '|' as comparison operator; it always takes the false branch: " ++
      Text.quoted (Text.trim rule))
  | _ => none

end Step

namespace Rule

def warnings : Value → List String
  | .text rule => match Step.ofText rule with
    | .ok step => (step.warning? rule).toList
    | .error _ => []
  | _ => []

/-- The rule with its identifiers replaced by `extend` of them. A text that is no rule is replaced
as a whole. -/
def normalizeText (extend : String → String) (rule : String) : String :=
  match Step.ofText rule with
  | .ok step => (step.mapRefs extend).toText
  | .error _ => extend rule

def normalize (extend : String → String) : Value → Value
  | .text rule => .text (normalizeText extend rule)
  | v => v

end Rule
end FormulaGraph
