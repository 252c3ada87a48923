import FormulaGraph.Rule.Step

/-!
Reading rules. A rule, trimmed, has one of six forms, where `N` is a plain number, a comparison is
one of `<`, `>` and `|`, and an operation one of `+`, `-`, `*` and `/`:

    ROUNDUP
    MAX(result, N)
    IF([ref] comparison N, N, N)
    [ref]
    [ref] operation operand
    operation operand

An operand is a bracketed identifier, a number in any notation, or a bare identifier.
-/

namespace FormulaGraph

open Text Double

inductive RuleError where
  | notText (kind : String)
  | empty
  | malformedMax (rule : String)
  | unknownForm (rule : String)
  | badOperand (operand rule : String)

namespace RuleError

def message : RuleError → String
  | notText kind => "Rule must be a string, got " ++ kind
  | empty => "Empty computation rule"
  | malformedMax rule => "Malformed MAX rule: " ++ quoted rule
  | unknownForm rule => "Invalid computation rule: " ++ quoted rule
  | badOperand operand rule =>
    "Invalid operand " ++ quoted operand ++ " in computation rule " ++ quoted rule

/-- The rule an error is reported for: as it was written, or trimmed where only a part of it is at
fault. -/
def reported (written : Value) : RuleError → Value
  | malformedMax rule | badOperand _ rule => .text rule
  | notText _ | empty | unknownForm _ => written

end RuleError

namespace Step

def expect? (c : Char) : List Char → Option (List Char)
  | d :: rest => if d = c then some rest else none
  | [] => none

def skipBlanks (cs : List Char) : List Char := cs.dropWhile isBlank

/-- A bracket of either kind that encloses references. -/
def isBracket (c : Char) : Bool := c == '[' || c == ']'

/-- A reference in brackets at the start of a text, and what follows. The reference is not empty
before it is trimmed and holds no brackets. -/
def bracketed? : List Char → Option (String × List Char)
  | '[' :: cs =>
    let name := cs.takeWhile (!isBracket ·)
    match cs.dropWhile (!isBracket ·) with
    | ']' :: rest => if name.isEmpty then none else some (String.ofList (trimChars name), rest)
    | _ => none
  | _ => none

def threshold? (cs : List Char) : Option Float := do
  let cs ← expect? ',' (skipBlanks cs)
  let (x, cs) ← literal? (skipBlanks cs)
  let cs ← expect? ')' (skipBlanks cs)
  if cs.isEmpty then some x else none

def comparison? : List Char → Option (Comparison × List Char)
  | c :: rest => (Comparison.ofSymbol? c).map (·, rest)
  | [] => none

/-- A comma, a number and what follows, with blanks before each. -/
def nextNumber? (cs : List Char) : Option (Float × List Char) := do
  let cs ← expect? ',' (skipBlanks cs)
  literal? (skipBlanks cs)

def choice? (cs : List Char) : Option Step := do
  let (ref, cs) ← bracketed? (skipBlanks cs)
  let (comparison, cs) ← comparison? (skipBlanks cs)
  let (constant, cs) ← literal? (skipBlanks cs)
  let (thenValue, cs) ← nextNumber? cs
  let (elseValue, cs) ← nextNumber? cs
  let cs ← expect? ')' (skipBlanks cs)
  if cs.isEmpty then some (choose ref comparison constant thenValue elseValue) else none

/-- An operation, and the operand behind it, which is on the same line and not empty. -/
def operation? : List Char → Option (Op × List Char)
  | c :: rest => do
    let op ← Op.ofSymbol? c
    let operand := skipBlanks rest
    if operand.isEmpty || operand.contains '\n' then none else some (op, operand)
  | [] => none

def isIdentifierChar (c : Char) : Bool :=
  !(isBlank c || isBracket c || c == '(' || c == ')' || c == ',')

def term? (cs : List Char) : Option Term :=
  match bracketed? cs with
  | some (ref, []) => some (.ref ref)
  | _ =>
    match finite? cs with
    | some x => some (.number x)
    | none =>
      if !cs.isEmpty && cs.all isIdentifierChar then some (.ref (String.ofList cs)) else none

/-- An arithmetic step with the given left-hand side, if an operation and an operand follow. -/
def chain? (rule : String) (left : Option String) (cs : List Char) :
    Option (Except RuleError Step) :=
  (operation? cs).map fun (op, operand) =>
    match term? operand with
    | some right => .ok (chain left op right)
    | none => .error (.badOperand (String.ofList operand) rule)

def simple? (rule : String) (cs : List Char) : Option (Except RuleError Step) :=
  match bracketed? cs with
  | some (ref, []) => some (.ok (reuse ref))
  | some (ref, rest) => chain? rule (some ref) (skipBlanks rest)
  | none => chain? rule none cs

def roundUpWord : List Char := "ROUNDUP".toList

def maxWord : List Char := "MAX(result".toList

def ifWord : List Char := "IF(".toList

def afterWord? : List Char → List Char → Option (List Char)
  | [], cs => some cs
  | w :: word, cs => (expect? w cs).bind (afterWord? word)

def ofTrimmed (cs : List Char) : Except RuleError Step :=
  let rule := String.ofList cs
  if cs = roundUpWord then .ok roundUp
  else match afterWord? maxWord cs with
  | some rest =>
    match threshold? rest with
    | some x => .ok (atLeast x)
    | none => .error (.malformedMax rule)
  | none =>
    match (afterWord? ifWord cs).bind choice? with
    | some step => .ok step
    | none => (simple? rule cs).getD (.error (.unknownForm rule))

def ofText (rule : String) : Except RuleError Step :=
  let cs := trimChars rule.toList
  if cs.isEmpty then .error .empty else ofTrimmed cs

/-- The step a rule stands for; only texts are rules. -/
def ofRule : Value → Except RuleError Step
  | .text rule => ofText rule
  | v => .error (.notText v.kind)

end Step
end FormulaGraph
