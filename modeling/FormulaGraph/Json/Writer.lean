import FormulaGraph.Value

/-!
Writing JSON in ASCII: fields by name, each field and item on a line of its own.
-/

namespace FormulaGraph.Json

def unitEscape (unit : Nat) : List Char := '\\' :: 'u' :: Text.hexDigits 4 unit

def charText (c : Char) : List Char :=
  if c = '"' || c = '\\' then ['\\', c]
  else if c = '\n' then ['\\', 'n']
  else if c = '\r' then ['\\', 'r']
  else if c = '\t' then ['\\', 't']
  else if c = '\x08' then ['\\', 'b']
  else if c = '\x0c' then ['\\', 'f']
  else if 0x20 ≤ c.toNat && c.toNat < 0x7f then [c]
  else if c.toNat < 0x10000 then unitEscape c.toNat
  else
    let n := c.toNat - 0x10000
    unitEscape (0xd800 + n / 0x400) ++ unitEscape (0xdc00 + n % 0x400)

def textLiteral (s : String) : String :=
  String.ofList ('"' :: s.toList.flatMap charText ++ ['"'])

def newLine (depth : Nat) : String := String.ofList ('\n' :: List.replicate (2 * depth) ' ')

/-- Lines between an opening and a closing bracket. -/
def block (opening closing : String) (depth : Nat) (lines : List String) : String :=
  if lines.isEmpty then opening ++ closing
  else opening ++ newLine (depth + 1) ++ ("," ++ newLine (depth + 1)).intercalate lines ++
    newLine depth ++ closing

def sortFields {α : Type} (fields : List (String × α)) : List (String × α) :=
  fields.mergeSort fun a b => a.1 ≤ b.1

mutual

def write (depth : Nat) : Value → String
  | .missing => "null"
  | .bool b => if b then "true" else "false"
  | .int n => toString n
  | .float x => Double.Layout.interchange.render x
  | .text s => textLiteral s
  | .list items => block "[" "]" depth (writeItems (depth + 1) items)
  | .record fields =>
    block "\x7b" "\x7d" depth ((sortFields (writeFields (depth + 1) fields)).map fun (key, v) =>
      textLiteral key ++ ": " ++ v)
  | v => textLiteral v.literal

def writeItems (depth : Nat) : List Value → List String
  | [] => []
  | v :: rest => write depth v :: writeItems depth rest

def writeFields (depth : Nat) : List (String × Value) → List (String × String)
  | [] => []
  | (key, v) :: rest => (key, write depth v) :: writeFields depth rest

end

end FormulaGraph.Json
