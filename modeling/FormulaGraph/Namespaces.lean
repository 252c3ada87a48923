import FormulaGraph.Table
import FormulaGraph.Value
import FormulaGraph.Text.Word

/-!
Namespaces: short names for the beginnings of identifiers. `extend` writes a prefixed identifier
out in full and `shorten` is the way back; both leave alone what they do not know.
-/

namespace FormulaGraph

open Text

/-- Prefixes and the namespaces they stand for, in order of registration. -/
structure Namespaces where
  table : Table String

namespace Namespaces

def standard : Namespaces where
  table := Table.ofList [
    ("rdf", "http://www.w3.org/1999/02/22-rdf-syntax-ns#"),
    ("rdfs", "http://www.w3.org/2000/01/rdf-schema#"),
    ("owl", "http://www.w3.org/2002/07/owl#"),
    ("xsd", "http://www.w3.org/2001/XMLSchema#"),
    ("foaf", "http://xmlns.com/foaf/0.1/"),
    ("kno", "http://knorke/")]

instance : Inhabited Namespaces := ⟨standard⟩

/-- A prefix without the colons it may be written with. -/
def prefixName (name : String) : String :=
  String.ofList (name.toList.reverse.dropWhile (· == ':')).reverse

/-- Registers a prefix, replacing the namespace it had. -/
def add (ns : Namespaces) (name uri : String) : Namespaces :=
  ⟨ns.table.insert (prefixName name) uri⟩

def addAll (ns : Namespaces) (pairs : List (String × String)) : Namespaces :=
  pairs.foldl (fun ns p => ns.add p.1 p.2) ns

def ofTable (table : Table String) : Namespaces := standard.addAll table.entries

/-- What a prefix is made of: an ASCII letter, then word characters, hyphens and points. -/
def isPrefixName : List Char → Bool
  | [] => false
  | c :: rest => c.isAlpha && rest.all fun d => isWord d || d == '-' || d == '.'

/-- What the local part of a prefixed identifier is made of. -/
def isLocalChar (c : Char) : Bool :=
  !(isBlank c || c == '[' || c == ']' || c == '(' || c == ')' || c == '/')

/-- Prefix and local part of a prefixed identifier, split at its first colon. A line feed behind the
local part is not part of it. -/
def splitPrefixed? (cs : List Char) : Option (List Char × List Char) :=
  let name := cs.takeWhile (· != ':')
  match cs.dropWhile (· != ':') with
  | [] => none
  | _ :: rest =>
    let rest := dropFinalLineFeed rest
    if isPrefixName name && rest.all isLocalChar then some (name, rest) else none

/-- The full form of an identifier: a registered prefix is replaced by its namespace. -/
def extend (ns : Namespaces) (identifier : String) : String :=
  match splitPrefixed? identifier.toList with
  | none => identifier
  | some (name, rest) =>
    match ns.table.get? (String.ofList name) with
    | none => identifier
    | some uri => uri ++ String.ofList rest

/-- The prefix whose namespace is the longest that an identifier starts with, the first registered
of several; an empty namespace counts for nothing. -/
def longest? (identifier : String) (entries : List (String × String)) : Option (String × String) :=
  entries.foldl (fun best e =>
    if e.2.toList.isPrefixOf identifier.toList && (best.elim 0 (·.2.length)) < e.2.length
    then some e else best) none

/-- The short form of an identifier, if it extends back to the same identifier. -/
def shorten (ns : Namespaces) (identifier : String) : String :=
  match longest? identifier ns.table.entries with
  | none => identifier
  | some (name, uri) =>
    let short := name ++ ":" ++ String.ofList (identifier.toList.drop uri.length)
    if ns.extend short = identifier then short else identifier

/-- The full form of a text; other values stay as they are. -/
def extendValue (ns : Namespaces) : Value → Value
  | .text s => .text (ns.extend s)
  | v => v

def shortenValue (ns : Namespaces) : Value → Value
  | .text s => .text (ns.shorten s)
  | v => v

/-- The form in which a cell is compared: a text trimmed and in full form. -/
def comparisonKey (ns : Namespaces) : Value → Value
  | .text s => .text (ns.extend (trim s))
  | v => v

end Namespaces
end FormulaGraph
