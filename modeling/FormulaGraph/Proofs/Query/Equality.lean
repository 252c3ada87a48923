import FormulaGraph.Value
import FormulaGraph.Proofs.Double.Range
import FormulaGraph.Proofs.Double.Zero

/-! Equality of cells is symmetric and transitive. Numbers of different kinds are equal where their
exact values are, so that an integer does not separate doubles that are equal. -/
namespace FormulaGraph

namespace Double

variable {x y : Float}

/-- Doubles with one exact value differ by no more than the sign of a zero. -/
theorem alike_of_toRat? {r : ℚ} (hx : toRat? x = some r) (hy : toRat? y = some r) : Alike x y := by
  by_cases hr : r = 0
  · subst hr
    obtain ⟨s, rfl⟩ := zero_of_toRat? hx
    obtain ⟨t, rfl⟩ := zero_of_toRat? hy
    exact alike_zero s t
  obtain ⟨p, hp, hpr⟩ := parts?_of_toRat? hx
  obtain ⟨q, hq, hqr⟩ := parts?_of_toRat? hy
  have hvalue : p.value = q.value := by
    rw [← p.abs_signedValue, ← q.abs_signedValue, hpr, hqr]
  have hsign : p.negative = q.negative := by
    have hpos := p.value_nonneg
    unfold Parts.signedValue at hpr hqr
    rw [← hvalue] at hqr
    cases hpn : p.negative <;> cases hqn : q.negative <;> simp [hpn, hqn] at hpr hqr ⊢
    · exact hr (by linarith)
    · exact hr (by linarith)
  refine Or.inl ?_
  rw [← nearest_of_parts? hp q.quotient_den_pos (q.quotient_value.trans hvalue.symm),
    ← nearest_of_parts? hq q.quotient_den_pos q.quotient_value, hsign]

theorem isFinite_of_toRat? {r : ℚ} (h : toRat? x = some r) : x.isFinite = true := by
  obtain ⟨p, hp, -⟩ := parts?_of_toRat? h
  exact isFinite_iff.2 ⟨p, hp⟩

theorem toRat?_eq_of_beq (h : (x == y) = true) : toRat? x = toRat? y := by
  obtain ⟨-, -, rfl | ⟨rfl, rfl⟩ | ⟨rfl, rfl⟩⟩ := Float.beq_iff_ne_nan_and_eq.1 h
  · rfl
  · decide +kernel
  · decide +kernel

theorem eqInt_iff {n : ℤ} : eqInt x n = true ↔ toRat? x = some (n : ℚ) := by
  rw [eqInt, beq_iff_eq, toInt?_eq_some_iff]

theorem beq_of_eqInt {n : ℤ} (hx : eqInt x n = true) (hy : eqInt y n = true) :
    (x == y) = true := by
  rw [eqInt_iff] at hx hy
  exact (alike_of_toRat? hx hy).beq (isFinite_of_toRat? hx)

theorem eqInt_of_beq {n : ℤ} (h : (x == y) = true) (hx : eqInt x n = true) : eqInt y n = true := by
  rw [eqInt_iff] at hx ⊢
  rw [← toRat?_eq_of_beq h, hx]

end Double

namespace Quantity

variable {p q r : Quantity}

theorem eq_symm (h : p.eq q = true) : q.eq p = true := by
  cases p with
  | whole a => cases q with
    | whole b => exact BEq.symm h
    | real y => exact h
  | real x => cases q with
    | whole b => exact h
    | real y => exact BEq.symm h

theorem eq_trans (hpq : p.eq q = true) (hqr : q.eq r = true) : p.eq r = true := by
  cases q with
  | whole b =>
    cases p with
    | whole a =>
      obtain rfl : a = b := by simpa [eq] using hpq
      exact hqr
    | real x => cases r with
      | whole c =>
        obtain rfl : b = c := by simpa [eq] using hqr
        exact hpq
      | real z => exact Double.beq_of_eqInt hpq hqr
  | real y =>
    cases p with
    | whole a => cases r with
      | whole c =>
        have ha := Double.eqInt_iff.1 hpq
        have hc := Double.eqInt_iff.1 hqr
        rw [ha, Option.some.injEq, Int.cast_inj] at hc
        simpa [eq] using hc
      | real z => exact Double.eqInt_of_beq hqr hpq
    | real x => cases r with
      | whole c => exact Double.eqInt_of_beq (BEq.symm hpq) hqr
      | real z => exact BEq.trans hpq hqr

end Quantity

namespace Operand

variable {o p q : Operand}

theorem eq_symm (h : o.eq p = true) : p.eq o = true := by
  cases o <;> cases p
  · exact Quantity.eq_symm h
  · contradiction
  · contradiction
  · exact BEq.symm h

theorem eq_trans (hop : o.eq p = true) (hpq : p.eq q = true) : o.eq q = true := by
  cases o <;> cases p <;> cases q <;> try contradiction
  · exact Quantity.eq_trans hop hpq
  · exact BEq.trans hop hpq

end Operand

namespace Value

variable {v w u : Value}

/-- The ways in which a value that can be looked up is equal to another one. -/
inductive Coincides : Value → Value → Prop
  | refl {v : Value} (hv : v.quantity? = none) : Coincides v v
  | operand {o p : Operand} (h : o.eq p = true) : Coincides (.operand o) (.operand p)
  | number {v w : Value} {p q : Quantity} (hv : v.quantity? = some p) (hw : w.quantity? = some q)
    (h : p.eq q = true) : Coincides v w

theorem coincides_of_eq (hv : v.isHashable = true) (h : v.eq w = true) : Coincides v w := by
  have hnumber : ∀ p q, v.quantity? = some p → w.quantity? = some q → p.eq q = true → Coincides v w :=
    fun _ _ hp hq => .number hp hq
  cases v <;> cases w <;> simp [isHashable, eq, quantity?] at hv h hnumber <;>
    first
    | exact hnumber h
    | exact .operand h
    | (subst h; exact .refl rfl)
    | (obtain ⟨rfl, rfl⟩ := h; exact .refl rfl)

theorem eq_of_quantity? {p q : Quantity} (hp : v.quantity? = some p) (hq : w.quantity? = some q) :
    v.eq w = p.eq q := by
  cases v <;> cases w <;> simp [quantity?] at hp hq <;> subst hp hq <;> rfl

theorem eq_symm (hv : v.isHashable = true) (h : v.eq w = true) : w.eq v = true := by
  cases coincides_of_eq hv h with
  | refl hq => exact h
  | operand h => exact Operand.eq_symm h
  | number hp hq h => exact (eq_of_quantity? hq hp).trans (Quantity.eq_symm h)

theorem isHashable_of_eq (hv : v.isHashable = true) (h : v.eq w = true) : w.isHashable = true := by
  cases coincides_of_eq hv h with
  | refl hq => exact hv
  | operand h => rfl
  | number hp hq h => cases w <;> simp [quantity?] at hq <;> rfl

theorem eq_trans (hv : v.isHashable = true) (hvw : v.eq w = true) (hwu : w.eq u = true) :
    v.eq u = true := by
  cases coincides_of_eq hv hvw with
  | refl hq => exact hwu
  | operand h => cases coincides_of_eq (v := .operand _) rfl hwu with
    | refl hq => exact hvw
    | operand h' => exact Operand.eq_trans h h'
    | number hp => contradiction
  | number hp hq h => cases coincides_of_eq (isHashable_of_eq hv hvw) hwu with
    | refl hq' =>
      rw [hq'] at hq
      contradiction
    | operand => contradiction
    | number hp' hq' h' =>
      obtain rfl := Option.some.inj (hq.symm.trans hp')
      exact (eq_of_quantity? hp hq').trans (Quantity.eq_trans h h')

theorem isMissing_of_quantity? {p q : Quantity} (hv : v.quantity? = some p) (h : p.eq q = true) :
    v.isMissing = false := by
  cases v with
  | missing => contradiction
  | float x =>
    obtain rfl := Option.some.inj hv
    cases q with
    | whole n =>
      exact Double.not_isNaN_of_isFinite (Double.isFinite_of_toRat? (Double.eqInt_iff.1 h))
    | real y =>
      change x.isNaN = false
      rw [Float.isNaN_eq_decide_eq_nan, decide_eq_false_iff_not]
      exact (Float.beq_iff_ne_nan_and_eq.1 h).1
  | _ => rfl

/-- Cells that count as equal are both missing or both there. -/
theorem isMissing_of_agrees (h : v.agrees w = true) (hv : v.isHashable = true) :
    v.isMissing = w.isMissing := by
  rcases Bool.or_eq_true_iff.1 h with heq | hmissing
  · cases coincides_of_eq hv heq with
    | refl => rfl
    | operand => rfl
    | number hp hq hpq =>
      rw [isMissing_of_quantity? hp hpq, isMissing_of_quantity? hq (Quantity.eq_symm hpq)]
  · obtain ⟨hv, hw⟩ := Bool.and_eq_true_iff.1 hmissing
    rw [hv, hw]

/-- A cell that can be found among others by equality, and is there. -/
structure IsCell (v : Value) : Prop where
  hashable : v.isHashable = true
  present : v.isMissing = false
  self : v.eq v = true

theorem isCell_text (s : String) : IsCell (.text s) := ⟨rfl, rfl, by simp [eq]⟩

/-- Next to a cell that is there, no missing value counts as equal. -/
theorem IsCell.agrees (hv : v.IsCell) : v.agrees w = v.eq w := by
  unfold Value.agrees
  rw [hv.present, Bool.false_and, Bool.or_false]

end Value
end FormulaGraph
