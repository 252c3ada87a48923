import FormulaGraph.Text.Ranges

/-!
White space and trimming. A blank is a Unicode white space character or one of the four
information separators; no-break spaces count, zero-width characters do not.
-/

namespace FormulaGraph.Text

def blankRanges : Ranges := [
  (0x9, 0xd), (0x1c, 0x20), (0x85, 0x85), (0xa0, 0xa0), (0x1680, 0x1680), (0x2000, 0x200a),
  (0x2028, 0x2029), (0x202f, 0x202f), (0x205f, 0x205f), (0x3000, 0x3000)]

def isBlank (c : Char) : Bool := blankRanges.contains c.toNat

/-- The characters without those at either end that satisfy `p`. -/
def trimBy (p : Char → Bool) (cs : List Char) : List Char :=
  ((cs.dropWhile p).reverse.dropWhile p).reverse

def trimChars (cs : List Char) : List Char := trimBy isBlank cs

def trim (s : String) : String := String.ofList (trimChars s.toList)

def dropFinalLineFeed (cs : List Char) : List Char :=
  if cs.getLast? = some '\n' then cs.dropLast else cs

end FormulaGraph.Text
