import FormulaGraph.Proofs.Query.Comparison

/-! Columns of any cells, compared with a text. What kind the other cells give a column makes no
difference, unless they are dates and the text names one. -/
namespace FormulaGraph

namespace Value

theorem equals_text (v : Value) (s : String) : v.equals (.text s) = v.eq (.text s) := by
  cases v <;> simp [equals, eq, quantity?, isMissing]

theorem eq_text_iff {v : Value} {s : String} : v.eq (.text s) = true ↔ v = .text s := by
  cases v <;> simp [eq, quantity?]

end Value

namespace Column

variable {cells : List Value} {s : String}

/-- Whether a cell equals a text in a column of a kind: next to dates, a text that names one is taken
for it. -/
def equalsText (kind : CellKind) (s : String) (v : Value) : Bool :=
  match kind, Iso.moment? s with
  | .moments, some (d, clock) => v.equals (.moment d clock)
  | _, _ => v.eq (.text s)

/-- What can be looked up is found by equality among names. -/
theorem matching_names (names : List String) {v : Value} (hv : v.isHashable = true) :
    matching ⟨.mixed, names.map .text⟩ v = .ok (names.map fun name => (Value.text name).eq v) := by
  have hequal : (⟨.mixed, names.map .text⟩ : Column).equalTo v =
      names.map fun name => (Value.text name).eq v := by
    unfold equalTo
    rw [List.map_map]
    exact List.map_congr_left fun name _ => equals_of_isText rfl v
  cases v with
  | missing =>
    refine congrArg Except.ok ((List.map_map ..).trans (List.map_congr_left fun name _ => ?_))
    simp [Value.eq, Value.quantity?]
  | list items | record fields => contradiction
  | _ => exact congrArg Except.ok hequal

end Column
end FormulaGraph
