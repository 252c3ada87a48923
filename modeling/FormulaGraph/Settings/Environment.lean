import FormulaGraph.Settings
import FormulaGraph.Settings.EnvFile

/-!
Settings from environment variables and from the text of an environment file. A variable that is
set, even to nothing, wins over the file.
-/

namespace FormulaGraph.Settings

/-- The text before the first equals sign and the text behind it, both trimmed. -/
def splitEntry? (entry : String) : Option (String × String) :=
  match entry.toList.dropWhile (· != '=') with
  | [] => none
  | _ :: uri =>
    some (Text.trim (String.ofList (entry.toList.takeWhile (· != '='))),
      Text.trim (String.ofList uri))

/-- The prefixes of a list of entries `prefix=uri` between commas. Entries that lack a part are
left out. -/
def namespacesOf (entries : String) : Table String :=
  Table.ofList (((entries.splitOn ",").filterMap splitEntry?).filter fun (name, uri) =>
    !name.isEmpty && !uri.isEmpty)

def ofEnvironment (environment : Table String) (file : String) : Settings :=
  let assigned := EnvFile.read environment file
  let setting? (name : String) := (environment.get? name).or (assigned.get? name).join
  let vocabulary : Vocabulary := {}
  normal (namespacesOf ((setting? "STATVAL_NAMESPACES").getD ""))
    { entityType := (setting? "STATVAL_STATISTIC_TYPE").elim vocabulary.entityType .text
      orderPredicate :=
        (setting? "STATVAL_ORDER_PREDICATE").elim vocabulary.orderPredicate .text }
    (.text ((setting? "STATVAL_EAGER_CYCLE_CHECK").getD "true"))
    ((setting? "STATVAL_LOG_LEVEL").getD "INFO")

/-- The prefixes of entries `prefix=uri`, or the first entry that has no equals sign. -/
def parseNamespaces (entries : List String) : Except String (Table String) :=
  Table.ofList <$> entries.mapM fun entry =>
    match splitEntry? entry with
    | some p => .ok p
    | none => .error entry

end FormulaGraph.Settings
