import FormulaGraph.Text.Blank
import FormulaGraph.Text.Digit

/-!
Command-line arguments: long options with a value each, which follows as the next argument or
behind an equals sign. An option may be shortened as long as it stays unambiguous.
-/

namespace FormulaGraph.CommandLine

inductive Flag where
  | help
  | triples
  | base
  | addNamespace
  | output
  | envFile
  | logLevel
deriving DecidableEq

def optionNames : List (String × Flag) := [
  ("--help", .help), ("--triples", .triples), ("--base", .base), ("--namespace", .addNamespace),
  ("--output", .output), ("--env-file", .envFile), ("--log-level", .logLevel)]

structure Arguments where
  triples : Option String := none
  base : Option String := none
  namespaces : List String := []
  output : Option String := none
  envFile : Option String := none
  logLevel : Option String := none

/-- How reading arguments can end before there is anything to do. -/
inductive Stop where
  | help
  | usage

inductive Argument where
  /-- A value, or nothing known if no option wants one. -/
  | value (s : String)
  /-- An option, with the value behind its equals sign. -/
  | named (flag : Flag) (attached : Option String)
  /-- It looks like an option and is none. -/
  | unknown
  /-- An option that takes no value, with one behind it. -/
  | overfull
  | ambiguous
  /-- Everything behind it is a value. -/
  | separator

/-- Whether a text is a negative number without an exponent; a line feed may follow. -/
def isNegativeNumber (cs : List Char) : Bool :=
  match Text.dropFinalLineFeed cs with
  | '-' :: cs =>
    let whole := cs.takeWhile Text.isDigit
    match cs.dropWhile Text.isDigit with
    | [] => !whole.isEmpty
    | '.' :: places => !places.isEmpty && places.all Text.isDigit
    | _ => false
  | _ => false

def splitEquals (cs : List Char) : String × Option String :=
  (String.ofList (cs.takeWhile (· != '=')),
    match cs.dropWhile (· != '=') with
    | _ :: rest => some (String.ofList rest)
    | [] => none)

/-- What an argument that looks like an option but is no full name stands for. -/
def shortened (s : String) : Argument :=
  let (name, attached) := splitEquals s.toList
  let fitting := optionNames.filter fun p => name.toList.isPrefixOf p.1.toList
  match fitting with
  | [(_, .help)] => if attached.isSome then .overfull else .named .help none
  | [p] => .named p.2 attached
  | _ :: _ :: _ => .ambiguous
  | [] =>
    if isNegativeNumber s.toList || s.toList.contains ' ' then .value s else .unknown

/-- What `-h` stands for, given the rest of the argument: letters behind it, also behind an equals
sign, ask for help again, and anything else is too much. -/
def shortHelp (rest : List Char) : Argument :=
  let letters := match rest with
    | '=' :: rest => if rest.isEmpty then ['='] else rest
    | rest => rest
  if letters.all (· == 'h') then .named .help none else .overfull

def Argument.ofString (s : String) : Argument :=
  match s.toList with
  | ['-', '-'] => .separator
  | '-' :: '-' :: _ => shortened s
  | '-' :: 'h' :: rest => shortHelp rest
  | '-' :: _ :: _ =>
    if isNegativeNumber s.toList || s.toList.contains ' ' then .value s else .unknown
  | _ => .value s

/-- The arguments by their looks; those behind a separator are values. -/
def classify : List String → List Argument
  | [] => []
  | s :: rest =>
    match Argument.ofString s with
    | .separator => .separator :: rest.map .value
    | a => a :: classify rest

namespace Arguments

def set (a : Arguments) (v : String) : Flag → Arguments
  | .help => a
  | .triples => { a with triples := some v }
  | .base => { a with base := some v }
  | .addNamespace => { a with namespaces := a.namespaces ++ [v] }
  | .output => { a with output := some v }
  | .envFile => { a with envFile := some v }
  | .logLevel => { a with logLevel := some v }

/-- Reads arguments from left to right; `known` tells whether all so far had a meaning. The first
request for help or option without its value ends the reading. -/
def readFrom (a : Arguments) (known : Bool) : List Argument → Except Stop Arguments
  | [] => if known && a.triples.isSome && a.base.isSome then .ok a else .error .usage
  | .named .help _ :: _ => .error .help
  | .named flag (some v) :: rest => readFrom (a.set v flag) known rest
  | .named flag none :: .value v :: rest => readFrom (a.set v flag) known rest
  | .named _ none :: _ => .error .usage
  | .overfull :: _ => .error .usage
  | _ :: rest => readFrom a false rest

def isAmbiguous : Argument → Bool
  | .ambiguous => true
  | _ => false

def read (args : List String) : Except Stop Arguments :=
  let args := classify args
  if args.any isAmbiguous then .error .usage else readFrom {} true args

end Arguments
end FormulaGraph.CommandLine
