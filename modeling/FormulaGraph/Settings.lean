import FormulaGraph.Namespaces
import FormulaGraph.Entity
import FormulaGraph.Text.Uppercase

/-!
Settings of a computation: known prefixes, the vocabulary of the graph, whether cycles are looked
for beforehand, and how much is logged.
-/

namespace FormulaGraph

structure Settings where
  /-- Prefixes on top of those a store knows. -/
  namespaces : Table String
  vocabulary : Vocabulary
  /-- Whether cycles are looked for before anything is evaluated; any value may say so. -/
  eagerCheck : Value
  logLevel : String

/-- Whether a value counts as true: nothing missing, empty or zero does. -/
def Value.isTrue : Value → Bool
  | missing => false
  | bool b => b
  | int n => n != 0
  | float x => !(x == 0)
  | text s => !s.isEmpty
  | list items => !items.isEmpty
  | record fields => !fields.isEmpty
  | date _ | moment _ _ | operand _ => true

namespace Settings

/-- The words that switch something on, in any case: all are ASCII, and no other letter has one of
theirs as its small form. -/
def isOn (word : String) : Bool :=
  let small := (Text.trimChars word.toList).map Char.toLower
  ["1", "true", "yes", "on"].contains (String.ofList small)

/-- The value of a switch: a text is read as a word, anything else is kept. -/
def switch : Value → Value
  | .text word => .bool (isOn word)
  | v => v

def normal (namespaces : Table String) (vocabulary : Vocabulary) (eagerCheck : Value)
    (logLevel : String) : Settings where
  namespaces := namespaces.mapKeys Namespaces.prefixName
  vocabulary
  eagerCheck := switch eagerCheck
  logLevel := Text.uppercase logLevel

def default : Settings := normal Table.empty {} (.bool true) "INFO"

def allNamespaces (s : Settings) : Table String :=
  Namespaces.standard.table.insertAll s.namespaces.entries

end Settings
end FormulaGraph
