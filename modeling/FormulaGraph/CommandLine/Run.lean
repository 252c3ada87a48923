import FormulaGraph.CommandLine.Arguments
import FormulaGraph.CommandLine.Format
import FormulaGraph.Csv
import FormulaGraph.Engine
import FormulaGraph.Json.Reader
import FormulaGraph.Json.Writer
import FormulaGraph.Settings.Environment

/-!
The command: read a table of triples and a record of base values, compute, show the values, and
write them to a file if asked to. A run is a function of its arguments, its environment and its
files.
-/

namespace FormulaGraph.CommandLine

inductive Failure where
  | namespaceEntry (entry : String)
  | base (cause : PathError)
  | json (cause : Json.Error)
  | notARecord (path : String)
  | triples (cause : PathError)
  /-- A text does not have the format that the name of its file promises. -/
  | unreadable (format : Format) (isEmpty : Bool)
  | csv (cause : Csv.Error)
  | store (cause : StoreError)
  | discovery (cause : DiscoveryError)
  | unknownOrder (uri : String)
  | arithmetic (cause : ArithmeticError)
  /-- A value has an integer with too many digits to be written. -/
  | longInteger
  /-- The directory of the output cannot be made. -/
  | outputDirectory (cause : PathError)
  | output (cause : PathError)

def Failure.message : Failure → String
  | namespaceEntry entry => "namespace must look like prefix=uri: " ++ Text.quoted entry
  | base cause | triples cause | outputDirectory cause | output cause => cause.message
  | json .malformed => "malformed JSON"
  | json .longInteger => "an integer has too many digits"
  | notARecord path => path ++ " must contain a JSON object"
  | unreadable _ _ => "the triple table does not have the format of its name"
  | csv .noColumns => "no columns in the triple table"
  | csv .unclosedQuote => "unclosed quote in the triple table"
  | csv .longRecord => "a record of the triple table is too long"
  | store cause => cause.message
  | discovery cause => cause.message
  | unknownOrder uri => (ComputationError.unknownOrder uri).message
  | arithmetic cause => cause.message
  | longInteger => Value.longIntegerText

/-- How a run ends: with an exit status or a failure. -/
inductive Ending where
  | exit (status : Nat)
  | failure (cause : Failure)

structure Outcome where
  ending : Ending
  /-- What is shown. -/
  output : String
  /-- The error it logs. -/
  log : Option ComputationError
  /-- The path and the text of the file it writes. -/
  written : Option (String × String)
  /-- The files afterwards. -/
  files : Files

def errorKind : ComputationError → String
  | .discovery _ => "DiscoveryError"
  | .unknownOrder _ => "UnknownOrder"
  | .missingBase _ => "MissingBaseValue"
  | .cyclicOrders _ | .evaluation (.cyclic _) => "CyclicDependency"
  | .evaluation (.invalidRule _ _) => "InvalidRule"
  | .evaluation (.undefinedOrder _ _) => "UndefinedComputationOrder"
  | .evaluation (.arithmetic _) => "ArithmeticError"
  | .evaluation .longInteger => "ValueError"
  | .evaluation .tooDeep => "RecursionError"

def logText (e : ComputationError) : String := errorKind e ++ ": " ++ e.message

/-- What is shown of a table of values, by identifier. -/
def report (values : Table Value) : String :=
  let lines := (Json.sortFields values.entries).map fun (uri, v) =>
    "  " ++ uri ++ " = " ++ v.display ++ "\n"
  "\nComputation complete: " ++ toString values.size ++ " values\n" ++ String.join lines

/-- The settings of a run: arguments over environment over the environment file. -/
def settings (environment : Table String) (envFile : String) (arguments : Arguments) :
    Except Failure Settings := do
  let s := Settings.ofEnvironment environment envFile
  match Settings.parseNamespaces arguments.namespaces with
  | .ok more => return { s with namespaces := s.namespaces.insertAll more.entries }
  | .error entry => throw (.namespaceEntry entry)

def baseValues (files : Files) (path : String) : Except Failure (Table Value) :=
  match files.read path with
  | .error cause => .error (.base cause)
  | .ok s =>
    match Json.read s with
    | .error cause => .error (.json cause)
    | .ok (.record fields) => .ok (Table.ofList fields)
    | .ok _ => .error (.notARecord path)

def triplesText (files : Files) (path : String) : Except Failure String :=
  let format := Format.ofPath path
  if format = .zstandard then .error (.unreadable format false)
  else match files.read path with
    | .error cause => .error (.triples cause)
    | .ok s => if format = .plain then .ok s else .error (.unreadable format s.isEmpty)

def tripleStore (files : Files) (path : String) (ns : Namespaces) : Except Failure Store := do
  match Csv.read (← triplesText files path) with
  | .error cause => throw (.csv cause)
  | .ok sheet =>
    match Store.ofSheet ns sheet with
    | .error cause => throw (.store cause)
    | .ok store => return store

def engine (files : Files) (environment : Table String) (arguments : Arguments)
    (triples base : String) : Except Failure Engine := do
  let envFile := match files.read (arguments.envFile.getD "") with
    | .ok s => s
    | .error _ => ""
  let s ← settings environment envFile arguments
  let values ← baseValues files (Files.tidy base)
  let ns := Namespaces.ofTable s.allNamespaces
  let store ← tripleStore files (Files.tidy triples) ns
  return Engine.new store values s (some ns)

def writeValues (files : Files) (path : String) (s : String) : Except Failure Files := do
  match files.ensureParent path with
  | .error cause => throw (.outputDirectory cause)
  | .ok files =>
    match files.write path s with
    | .error cause => throw (.output cause)
    | .ok files => return files

def Outcome.failed (files : Files) (cause : Failure) : Outcome :=
  ⟨.failure cause, "", none, none, files⟩

def finish (files : Files) (arguments : Arguments) (values : Table Value) : Outcome :=
  match arguments.output.filter (!·.isEmpty) with
  | none => ⟨.exit 0, report values, none, none, files⟩
  | some path =>
    let path := Files.tidy path
    let s := Json.write 0 (.record values.entries)
    match writeValues files path s with
    | .ok files => ⟨.exit 0, report values, none, some (path, s), files⟩
    | .error cause => Outcome.failed files cause

def compute (files : Files) (arguments : Arguments) (e : Engine) : Outcome :=
  match e.compute with
  | .ok values => finish files arguments values
  | .error (.discovery cause) => Outcome.failed files (.discovery cause)
  | .error (.unknownOrder uri) => Outcome.failed files (.unknownOrder uri)
  | .error (.evaluation (.arithmetic cause)) => Outcome.failed files (.arithmetic cause)
  | .error (.evaluation .longInteger) => Outcome.failed files .longInteger
  | .error cause => ⟨.exit 1, "", some cause, none, files⟩

def run (files : Files) (environment : Table String) (args : List String) : Outcome :=
  match Arguments.read args with
  | .error .help => ⟨.exit 0, "", none, none, files⟩
  | .error .usage => ⟨.exit 2, "", none, none, files⟩
  | .ok arguments =>
    match engine files environment arguments (arguments.triples.getD "")
        (arguments.base.getD "") with
    | .error cause => Outcome.failed files cause
    | .ok e => compute files arguments e

end FormulaGraph.CommandLine
