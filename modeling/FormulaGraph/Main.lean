import FormulaGraph.CommandLine.Run

/-!
The program: it reads the files that the arguments name, runs the command on them, shows what it
has to show and writes what it has to write.
-/

namespace FormulaGraph

def settingVariables : List String := [
  "STATVAL_NAMESPACES", "STATVAL_STATISTIC_TYPE", "STATVAL_ORDER_PREDICATE",
  "STATVAL_EAGER_CYCLE_CHECK", "STATVAL_LOG_LEVEL"]

def readIfPresent (path : String) : IO (Option String) := do
  try
    return some (← IO.FS.readFile path)
  catch _ =>
    return none

def isDirectory (path : String) : IO Bool := do
  try
    (← IO.FS.realPath path).isDir
  catch _ =>
    return false

def readFiles (paths : List String) : IO CommandLine.Files := do
  let mut texts : List (String × String) := []
  let mut directories : List CommandLine.Place := []
  for path in paths.map CommandLine.Files.tidy do
    if let some text ← readIfPresent path then
      texts := texts ++ [(path, text)]
    else if ← isDirectory path then
      directories := directories ++
        [(path.splitOn "/").foldl CommandLine.Place.child (CommandLine.Place.start path)]
  let files := CommandLine.Files.ofTexts texts
  return { files with directories := files.directories ++ directories }

def readEnvironment : IO (Table String) := do
  let mut environment : Table String := Table.empty
  for name in settingVariables do
    if let some v ← IO.getEnv name then
      environment := environment.insert name v
  return environment

def inputPaths (args : List String) : List String :=
  match CommandLine.Arguments.read args with
  | .ok a => [a.triples, a.base, a.envFile].filterMap id
  | .error _ => []

end FormulaGraph

open FormulaGraph in
def main (args : List String) : IO UInt32 := do
  let outcome := CommandLine.run (← readFiles (inputPaths args)) (← readEnvironment) args
  if let some (path, text) := outcome.written then
    if let _ :: parents@(_ :: _) := (path.splitOn "/").reverse then
      IO.FS.createDirAll ("/".intercalate parents.reverse)
    IO.FS.writeFile path text
  IO.print outcome.output
  if let some cause := outcome.log then
    IO.eprintln (CommandLine.logText cause)
  match outcome.ending with
  | .exit status => return UInt32.ofNat status
  | .failure cause =>
    IO.eprintln cause.message
    return 1
