import FormulaGraph.Table
import FormulaGraph.Text.Blank

/-!
Environment files: one assignment `NAME=value` a line, with comments behind `#`. A value may stand
in single or double quotes, in which a backslash escapes; a name without `=` assigns nothing, and
a line that cannot be read is left out. In a value, a name in braces behind a dollar sign stands for
what that name is set to.
-/

namespace FormulaGraph.EnvFile

open Text

def isInlineBlank (c : Char) : Bool := isBlank c && c != '\r' && c != '\n'

def skipInline (cs : List Char) : List Char := cs.dropWhile isInlineBlank

def isLineEnd (c : Char) : Bool := c == '\n' || c == '\r'

def skipLine (cs : List Char) : List Char := (cs.dropWhile (!isLineEnd ·)).drop 1

/-- What follows the word `export` and the blanks that must follow it, if both are there. -/
def skipExport : List Char → List Char
  | 'e' :: 'x' :: 'p' :: 'o' :: 'r' :: 't' :: c :: rest =>
    if isInlineBlank c then skipInline rest
    else 'e' :: 'x' :: 'p' :: 'o' :: 'r' :: 't' :: c :: rest
  | cs => cs

/-- The text up to a closing quote, with its escapes, and what follows the quote. A character
behind a backslash does not close. -/
def untilQuote? (quote : Char) : List Char → Option (List Char × List Char)
  | [] => none
  | ['\\'] => none
  | '\\' :: c :: rest => (untilQuote? quote rest).map fun (cs, after) => ('\\' :: c :: cs, after)
  | c :: rest =>
    if c = quote then some ([], rest)
    else (untilQuote? quote rest).map fun (cs, after) => (c :: cs, after)

def escapes : List (Char × Char) := [
  ('\\', '\\'), ('\'', '\''), ('"', '"'), ('a', '\x07'), ('b', '\x08'), ('f', '\x0c'),
  ('n', '\n'), ('r', '\r'), ('t', '\t'), ('v', '\x0b')]

/-- The text with its escapes replaced; single quotes know those of the backslash and of single
quotes only. -/
def unescape (quote : Char) : List Char → List Char
  | '\\' :: c :: rest =>
    if quote = '"' || c = '\\' || c = '\'' then
      match escapes.lookup c with
      | some d => d :: unescape quote rest
      | none => '\\' :: unescape quote (c :: rest)
    else '\\' :: unescape quote (c :: rest)
  | c :: rest => c :: unescape quote rest
  | [] => []

/-- The text before the first comment, which needs a blank in front. -/
def dropComment : List Char → List Char
  | [] => []
  | c :: rest =>
    if isBlank c && (rest.dropWhile isBlank).head? = some '#' then [] else c :: dropComment rest

/-- An unquoted value: the rest of the line without a comment and without blanks around it. -/
def plainValue (cs : List Char) : List Char := trimChars (dropComment cs)

def value? (cs : List Char) : Option (List Char × List Char) :=
  let plain := some (plainValue (cs.takeWhile (!isLineEnd ·)), cs.dropWhile (!isLineEnd ·))
  match skipInline cs with
  | c :: rest =>
    if c = '\'' || c = '"' then
      (untilQuote? c rest).map fun (cs, after) => (unescape c cs, after)
    else plain
  | [] => plain

/-- The name at the start of a line, empty for a comment, and what follows. -/
def name? : List Char → Option (List Char × List Char)
  | '#' :: rest => some ([], '#' :: rest)
  | '\'' :: rest =>
    let name := rest.takeWhile (· != '\'')
    match rest.dropWhile (· != '\'') with
    | _ :: after => if name.isEmpty then none else some (name, after)
    | [] => none
  | cs =>
    let isNameChar c := !(c == '=' || c == '#' || isBlank c)
    let name := cs.takeWhile isNameChar
    if name.isEmpty then none else some (name, cs.dropWhile isNameChar)

def lineEnd? (cs : List Char) : Option (List Char) :=
  let cs := match skipInline cs with
    | '#' :: rest => rest.dropWhile (!isLineEnd ·)
    | _ => cs
  match skipInline cs with
  | [] => some []
  | c :: rest => if isLineEnd c then some rest else none

/-- One line: the name it starts with and the value it assigns, and what follows. -/
def line (cs : List Char) : Option (List Char × Option (List Char)) × List Char :=
  let cs := skipExport cs
  match name? cs with
  | none => (none, skipLine cs)
  | some (name, rest) =>
    let rest := skipInline rest
    let assigned := match rest with
      | '=' :: rest => (value? rest).map fun (v, after) => (some v, after)
      | rest => some (none, rest)
    match assigned with
    | none => (none, skipLine rest)
    | some (v, after) =>
      match lineEnd? after with
      | some rest => (if name.isEmpty then none else some (name, v), rest)
      | none => (none, skipLine after)

/-- The names and values of a text, read from at most `count` lines. -/
def assignments : Nat → List Char → List (String × Option String)
  | 0, _ => []
  | count + 1, cs =>
    match cs.dropWhile isBlank with
    | [] => []
    | cs =>
      let (binding, rest) := line cs
      let here := binding.map fun (name, v) => (String.ofList name, v.map String.ofList)
      here.toList ++ assignments count rest

def unifyLineEnds : List Char → List Char
  | '\r' :: '\n' :: rest => '\n' :: unifyLineEnds rest
  | '\r' :: rest => '\n' :: unifyLineEnds rest
  | c :: rest => c :: unifyLineEnds rest
  | [] => []

inductive Piece where
  | char (c : Char)
  /-- A name to be replaced, with what stands for it if it is not set. -/
  | ref (name other : String)

def ref? (cs : List Char) : Option (Piece × List Char) :=
  let name := cs.takeWhile fun c => !(c == '\x7d' || c == ':')
  let inner (rest : List Char) := rest.takeWhile (· != '\x7d')
  match cs.drop name.length with
  | '\x7d' :: rest => some (.ref (String.ofList name) "", rest)
  | ':' :: '-' :: rest =>
    match rest.drop (inner rest).length with
    | _ :: after => some (.ref (String.ofList name) (String.ofList (inner rest)), after)
    | [] => none
  | _ => none

def pieces : Nat → List Char → List Piece
  | 0, _ | _, [] => []
  | count + 1, '$' :: '\x7b' :: rest =>
    match ref? rest with
    | some (p, after) => p :: pieces count after
    | none => .char '$' :: pieces count ('\x7b' :: rest)
  | count + 1, c :: rest => .char c :: pieces count rest

def Piece.text (set? : String → Option String) : Piece → String
  | char c => c.toString
  | ref name other => (set? name).getD other

def expand (set? : String → Option String) (v : String) : String :=
  String.join ((pieces v.length v.toList).map (Piece.text set?))

def dropMark : List Char → List Char
  | '\ufeff' :: rest => rest
  | cs => cs

/-- The names in a file with the values they are assigned; the last line of several counts. A
reference to a name means the environment, then the lines above; a name without a value is
nothing. -/
def read (environment : Table String) (s : String) : Table (Option String) :=
  let cs := dropMark (unifyLineEnds s.toList)
  (assignments (cs.length + 1) cs).foldl (fun table (name, v) =>
    let set? (other : String) : Option String :=
      (environment.get? other).or ((table.get? other).map (·.getD ""))
    table.insert name (v.map (expand set?))) Table.empty

end FormulaGraph.EnvFile
