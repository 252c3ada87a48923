import FormulaGraph.CommandLine.Files

/-!
Formats: what a file of triples holds by the end of its name. Plain text is read; of packed files it
is only known that a text is none.
-/

namespace FormulaGraph.CommandLine

inductive Format where
  | plain
  | parquet
  | tar
  | gzip
  | bzip2
  | zip
  | xz
  | zstandard
deriving DecidableEq

namespace Format

/-- The ends of names, the first that fits counting. -/
def extensions : List (String × Format) := [
  (".tar", tar), (".tar.gz", tar), (".tar.bz2", tar), (".tar.xz", tar), (".gz", gzip),
  (".bz2", bzip2), (".zip", zip), (".xz", xz), (".zst", zstandard)]

/-- Whether a name ends in a point and a word; there must be something in front. -/
def hasSuffix (suffix name : String) : Bool :=
  suffix.toList.isSuffixOf name.toList && suffix.length < name.length

/-- The format that a path, in tidy form, names in letters of any case. -/
def ofPath (path : String) : Format :=
  let small := String.ofList (path.toList.map Char.toLower)
  if hasSuffix ".parquet" ((small.splitOn "/").getLastD "") then parquet
  else ((extensions.find? fun e => e.1.toList.isSuffixOf small.toList).map (·.2)).getD plain

end Format
end FormulaGraph.CommandLine
