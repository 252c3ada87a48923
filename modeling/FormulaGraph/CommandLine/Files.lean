/-!
Files: what a run knows of the directories and texts around it. Paths are followed name by name, so
that a missing directory, a text in the place of a directory and the way up through `..` each have
their effect. Directories above the working directory are known, but nothing else in them.
-/

namespace FormulaGraph.CommandLine

inductive PathError where
  | missing
  | isDirectory
  | notDirectory
  | alreadyThere
  | nameTooLong
  | nulCharacter
deriving DecidableEq

def PathError.message : PathError → String
  | missing => "no such file or directory"
  | isDirectory => "is a directory"
  | notDirectory => "not a directory"
  | alreadyThere => "file exists"
  | nameTooLong => "file name too long"
  | nulCharacter => "embedded null byte"

inductive Origin where
  | root
  /-- So many directories above the working directory. -/
  | above (levels : Nat)
deriving DecidableEq

structure Place where
  origin : Origin
  names : List String
deriving DecidableEq

namespace Place

def here : Place := ⟨.above 0, []⟩

/-- The directory around a place; the root is its own. -/
def parent (p : Place) : Place :=
  match p.names, p.origin with
  | _ :: _, _ => { p with names := p.names.dropLast }
  | [], .root => p
  | [], .above levels => ⟨.above (levels + 1), []⟩

def child (p : Place) (name : String) : Place :=
  if name.isEmpty || name = "." then p
  else if name = ".." then p.parent
  else { p with names := p.names ++ [name] }

def isAround (p q : Place) : Bool :=
  p.origin = q.origin && p.names.length < q.names.length && p.names.isPrefixOf q.names

def start (path : String) : Place := if path.startsWith "/" then ⟨.root, []⟩ else here

end Place

inductive Node where
  | directory
  | text (s : String)

/-- Texts by place, and the directories that were made. -/
structure Files where
  texts : List (Place × String)
  directories : List Place

namespace Files

def rootDirectories : List Place :=
  ["bin", "dev", "etc", "home", "lib", "proc", "root", "sbin", "sys", "tmp", "usr", "var"].map
    fun name => ⟨.root, [name]⟩

def ofTexts (texts : List (String × String)) : Files where
  texts := texts.map fun (path, s) =>
    ((path.splitOn "/").foldl Place.child (Place.start path), s)
  directories := rootDirectories

def node? (files : Files) (p : Place) : Option Node :=
  match files.texts.lookup p with
  | some s => some (.text s)
  | none =>
    if p.names.isEmpty || files.directories.contains p || files.texts.any (p.isAround ·.1)
    then some .directory else none

def nameBytes : Nat := 255

def pathBytes : Nat := 4095

/-- Follows names from a place on. All but the last must lead to directories. -/
def follow (files : Files) (p : Place) : List String → Except PathError Place
  | [] => .ok p
  | name :: rest =>
    match files.node? p with
    | none => .error .missing
    | some (.text _) => .error .notDirectory
    | some .directory =>
      if nameBytes < name.utf8ByteSize then .error .nameTooLong
      else follow files (p.child name) rest

/-- The place that a path leads to; there need not be anything. -/
def locate (files : Files) (path : String) : Except PathError Place :=
  if path.toList.contains '\x00' then .error .nulCharacter
  else if pathBytes < path.utf8ByteSize then .error .nameTooLong
  else files.follow (Place.start path) (path.splitOn "/")

def read (files : Files) (path : String) : Except PathError String := do
  match files.node? (← files.locate path) with
  | some (.text s) => return s
  | some .directory => throw .isDirectory
  | none => throw .missing

def isDirectory (files : Files) (path : String) : Bool :=
  match files.read path with
  | .error .isDirectory => true
  | _ => false

def write (files : Files) (path s : String) : Except PathError Files := do
  let p ← files.locate path
  match files.node? p with
  | some .directory => throw .isDirectory
  | _ => return { files with texts := (p, s) :: files.texts.filter (·.1 != p) }

def makeDirectory (files : Files) (path : String) : Except PathError Files := do
  let p ← files.locate path
  if (files.node? p).isSome then throw .alreadyThere
  return { files with directories := p :: files.directories }

def pathOf (fromRoot : Bool) (names : List String) : String :=
  let path := (if fromRoot then "/" else "") ++ "/".intercalate names
  if path.isEmpty then "." else path

/-- The path without empty names and those that lead nowhere else. -/
def tidy (path : String) : String :=
  pathOf (path.startsWith "/") ((path.splitOn "/").filter fun name => !name.isEmpty && name != ".")

/-- What a try to make a directory comes to: it does not matter if it is there. -/
def settle (files : Files) (path : String) : Except PathError Files → Except PathError Files
  | .ok made => .ok made
  | .error cause => if files.isDirectory path then .ok files else .error cause

/-- The files with the directory of some names, given last first, and those around it that are
missing. -/
def ensureDirectory (files : Files) (fromRoot : Bool) : List String → Except PathError Files
  | [] => .ok files
  | name :: above =>
    let path := pathOf fromRoot (name :: above).reverse
    match files.makeDirectory path with
    | .error .missing => do
      let files ← ensureDirectory files fromRoot above
      settle files path (files.makeDirectory path)
    | r => settle files path r

def ensureParent (files : Files) (path : String) : Except PathError Files :=
  let names := ((tidy path).splitOn "/").filter fun name => !name.isEmpty && name != "."
  files.ensureDirectory (path.startsWith "/") (names.reverse.drop 1)

end Files
end FormulaGraph.CommandLine
