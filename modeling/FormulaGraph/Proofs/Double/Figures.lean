import FormulaGraph.Proofs.Double.Range
import FormulaGraph.Value

/-! The characters of written doubles. A finite one is written in figures, so that only NaN has the
text of NaN. -/
namespace FormulaGraph.Double

open Text

/-- The characters that finite doubles are written in. -/
def IsFigure (c : Char) : Prop := c.isDigit = true ∨ c ∈ ['-', '+', '.', 'e']

instance (c : Char) : Decidable (IsFigure c) := inferInstanceAs (Decidable (_ ∨ _))

variable {digits : List Char} {lead : ℤ} {c : Char}

theorem isFigure_exponentText {width : ℕ} {e : ℤ} (h : c ∈ exponentText width e) : IsFigure c := by
  unfold exponentText at h
  dsimp only at h
  simp only [List.cons_append, List.mem_cons, List.mem_append] at h
  rcases h with rfl | rfl | h | h
  · decide
  · split <;> decide
  · exact .inl (isDigits_zeros _ _ h)
  · exact .inl (isDigits_toDigits _ _ h)

theorem isFigure_positional (hdigits : IsDigits digits) (h : c ∈ positional digits lead) :
    IsFigure c := by
  unfold positional at h
  split at h
  · simp only [List.cons_append, List.mem_cons, List.mem_append] at h
    rcases h with rfl | rfl | h | h
    exacts [by decide, by decide, .inl (isDigits_zeros _ _ h), .inl (hdigits _ h)]
  · simp only [List.mem_append, List.mem_cons] at h
    rcases h with (h | h) | rfl | h
    · exact .inl (hdigits _ (List.mem_of_mem_take h))
    · exact .inl (isDigits_zeros _ _ h)
    · decide
    · split at h
      · obtain rfl := List.mem_singleton.1 h
        decide
      · exact .inl (hdigits _ (List.mem_of_mem_drop h))

theorem isFigure_scientific {width : ℕ} (hdigits : IsDigits digits)
    (h : c ∈ scientific width digits lead) : IsFigure c := by
  unfold scientific at h
  rcases List.mem_append.1 h with h | h
  · split at h
    · rename_i first second rest
      simp only [List.mem_cons] at h
      rcases h with rfl | rfl | h
      · exact .inl (hdigits _ List.mem_cons_self)
      · decide
      · exact .inl (hdigits _ (List.mem_cons_of_mem _ (List.mem_cons.2 h)))
    · exact .inl (hdigits _ h)
  · exact isFigure_exponentText h

/-- A finite double is written in figures. -/
theorem isFigure_render {layout : Layout} {x : Float} {p : Parts} (hx : parts? x = some p)
    (h : c ∈ (layout.render x).toList) : IsFigure c := by
  have hmagnitude : ∀ e ∈ if p.significand = 0 then ['0', '.', '0']
      else layout.magnitude p.shortest, IsFigure e := by
    intro e he
    split at he
    · simp only [List.mem_cons, List.not_mem_nil, or_false] at he
      rcases he with rfl | rfl | rfl
      all_goals decide
    · have hwritten := p.shortest.isDigits_written
      change e ∈ if _ then positional p.shortest.written _ else scientific _ p.shortest.written _
        at he
      split at he
      · exact isFigure_positional hwritten he
      · exact isFigure_scientific hwritten he
  unfold Layout.render at h
  rw [hx, String.toList_ofList] at h
  split at h
  · rcases List.mem_cons.1 h with rfl | h
    · decide
    · exact hmagnitude c h
  · exact hmagnitude c h

/-- Only NaN has the text of NaN. -/
theorem render_plain_eq_nan_iff {x : Float} :
    Layout.plain.render x = "nan" ↔ x.isNaN = true := by
  cases hx : parts? x with
  | some p =>
    have hfinite := not_isNaN_of_isFinite (isFinite_iff.2 ⟨p, hx⟩)
    refine iff_of_false (fun h => ?_) (Bool.eq_false_iff.1 hfinite)
    have hn : 'n' ∈ (Layout.plain.render x).toList := by
      rw [h]
      decide
    exact absurd (isFigure_render hx hn) (by decide)
  | none =>
    unfold Layout.render
    rw [hx]
    dsimp only
    split
    · rename_i hnan
      exact iff_of_true rfl hnan
    · rename_i hnan
      refine iff_of_false ?_ hnan
      split <;> decide

end FormulaGraph.Double
