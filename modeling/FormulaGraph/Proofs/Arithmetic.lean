import FormulaGraph.Arithmetic
import FormulaGraph.Proofs.Calendar.Text
import FormulaGraph.Proofs.Double.Range
import FormulaGraph.Proofs.Value

/-! Results as raw values: what arithmetic gives is read back as the operand that it is, unless it
is NaN or a day before the year 1000. -/
namespace FormulaGraph

/-- What arithmetic can give: a day, or a number as a double. -/
inductive Operand.IsResult : Operand → Prop where
  | day (d : Day) : IsResult (.day d)
  | real (x : Float) : IsResult (.number (.real x))

namespace Operand

/-- A day before the year 1000. -/
def IsEarly : Operand → Prop
  | day d => d.IsEarly
  | number _ => False

def IsNaN : Operand → Prop
  | number (.real x) => x.isNaN = true
  | _ => False

instance (o : Operand) : Decidable o.IsEarly :=
  match o with
  | day d => inferInstanceAs (Decidable d.IsEarly)
  | number _ => .isFalse id

instance (o : Operand) : Decidable o.IsNaN :=
  match o with
  | number (.real x) => inferInstanceAs (Decidable (x.isNaN = true))
  | number (.whole _) => .isFalse id
  | day _ => .isFalse id

variable {left right : Option Operand} {op : Option Op} {o : Operand}

theorem isResult_of_apply (h : apply left op right = .ok (some o)) : o.IsResult := by
  unfold apply at h
  split at h
  · obtain ⟨d, -, rfl⟩ := Option.map_eq_some_iff.1 (Except.ok.inj h)
    exact .day d
  · split at h
    · obtain ⟨x, -, rfl⟩ := Option.map_eq_some_iff.1 (Except.ok.inj h)
      exact .real x
    · cases Except.ok.inj h
  · rename_i a b
    cases hnum : numeric a op b with
    | error e =>
      rw [hnum] at h
      contradiction
    | ok x =>
      rw [hnum] at h
      obtain ⟨y, -, rfl⟩ := Option.map_eq_some_iff.1 (Except.ok.inj h)
      exact .real y
  · cases Except.ok.inj h

theorem apply_none_left : apply none op right = .ok none := by
  unfold apply
  cases right <;> rfl

theorem apply_none_right : apply left op none = .ok none := by
  unfold apply
  rcases left with _ | ⟨_ | _⟩ <;> rfl

def raw? (o : Operand) : Option Value := o.toValue.toOption

theorem IsResult.toValue_eq (h : o.IsResult) : ∃ r, o.toValue = .ok r ∧
    (r.isMissing = true ↔ o.IsNaN) ∧
    r.operand? = .ok (if o.IsEarly ∨ o.IsNaN then none else some o) := by
  cases h with
  | day d =>
    refine ⟨.text d.text, rfl, by simp [Value.isMissing, IsNaN], ?_⟩
    unfold Value.operand?
    dsimp only
    rw [d.trimChars_text]
    by_cases hd : d.IsEarly
    · rw [d.isDateText_text hd, if_neg Bool.false_ne_true, d.finite?_text, if_pos (.inl hd)]
      rfl
    · obtain ⟨hdate, hread⟩ := d.ofText?_text hd
      rw [hdate, if_pos rfl, hread, if_neg (by simp [IsEarly, IsNaN, hd])]
      rfl
  | real x =>
    refine ⟨.float x, rfl, Iff.rfl, ?_⟩
    unfold Value.operand?
    dsimp only
    by_cases hx : x.isNaN = true
    · rw [if_pos hx, if_pos (.inr hx)]
      rfl
    · have hneither : ¬ ((number (.real x)).IsEarly ∨ (number (.real x)).IsNaN) := by
        rintro (hearly | hnan)
        exacts [hearly, hx hnan]
      rw [if_neg hx, if_neg hneither]
      rfl

end Operand

theorem Value.isWritableInt_of_ofInt? {n : ℤ} {x : Float} (h : Double.ofInt? n = some x) :
    isWritableInt n = true :=
  isWritableInt_iff.2 ((Double.lt_of_ofInt? h).trans (by decide +kernel))

/-- The result of an operation on values, once their operands and the result on these are known. -/
theorem computeValue_eq {v w : Value} {op : Option Op} {left right result : Option Operand}
    (hv : v.operand? = .ok left) (hw : w.operand? = .ok right)
    (h : Operand.apply left op right = .ok result) :
    computeValue v op w = result.elim
      (if v.isWritable && w.isWritable then .ok .missing else .error .longInteger)
      Operand.toValue := by
  unfold computeValue
  rw [hv, hw]
  change (Operand.apply left op right >>= fun _ => _) = _
  rw [h]
  cases result <;> rfl

/-- A result that is neither missing nor NaN is that of the operation on operands, in its raw form,
and it is read back as that operand unless it is a day before the year 1000. -/
theorem operand?_computeValue {v w r : Value} {op : Option Op}
    (h : computeValue v op w = .ok r) (hr : r.isMissing = false) :
    ∃ left right o, v.operand? = .ok left ∧ w.operand? = .ok right ∧
      Operand.apply left op right = .ok (some o) ∧ o.toValue = .ok r ∧
      r.operand? = .ok (if o.IsEarly then none else some o) := by
  unfold computeValue at h
  cases hv : v.operand? with
  | error e => rw [hv] at h; contradiction
  | ok left =>
    cases hw : w.operand? with
    | error e => rw [hv, hw] at h; contradiction
    | ok right =>
      rw [hv, hw] at h
      change (Operand.apply left op right >>= fun _ => _) = _ at h
      cases ha : Operand.apply left op right with
      | error e => rw [ha] at h; contradiction
      | ok result =>
        rw [ha] at h
        cases result with
        | none =>
          have hmissing : (if v.isWritable && w.isWritable then .ok .missing
            else .error ArithmeticError.longInteger) = Except.ok r := h
          split at hmissing
          · obtain rfl := Except.ok.inj hmissing
            contradiction
          · contradiction
        | some o =>
          obtain ⟨r', hraw, hmissing, hread⟩ := (Operand.isResult_of_apply ha).toValue_eq
          obtain rfl : r' = r := Except.ok.inj (hraw.symm.trans h)
          have hnan : ¬ o.IsNaN := fun hn => by simp [hmissing.2 hn] at hr
          refine ⟨left, right, o, rfl, rfl, ha, hraw, ?_⟩
          simpa [hnan] using hread

end FormulaGraph
