import FormulaGraph.Value

/-!
Sheets: rows of cells under named columns, as files hold them and queries answer them.
-/

namespace FormulaGraph

/-- Rows of cells under named columns. A row that is too short lacks its last cells. -/
structure Sheet where
  columns : List String
  rows : List (List Value)

namespace Sheet

def ofColumns (columns : List String) : Sheet := ⟨columns, []⟩

def column? (t : Sheet) (name : String) : Option Nat := t.columns.findIdx? (· == name)

/-- The cell of a row in a column; missing beyond the end of the row. -/
def cell (row : List Value) (column : Nat) : Value := row.getD column .missing

def rowsAgree : List Value → List Value → Bool
  | [], [] => true
  | v :: r, w :: s => v.agrees w && rowsAgree r s
  | _, _ => false

/-- Whether two rows are the same for an answer. In a row of one cell an absent value and a NaN are
told apart. -/
def sameRow : List Value → List Value → Bool
  | [v], [w] => v.eq w || (v.isNaN && w.isNaN)
  | r, s => rowsAgree r s

/-- The rows without those that are the same as an earlier one. -/
def dropRepeated (rows : List (List Value)) : List (List Value) :=
  (rows.foldl (fun kept row =>
    if kept.any (sameRow · row) then kept else row :: kept) []).reverse

end Sheet
end FormulaGraph
