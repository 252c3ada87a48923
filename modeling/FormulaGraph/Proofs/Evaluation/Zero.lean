import FormulaGraph.Proofs.Double.Zero
import FormulaGraph.Session

/-! Values that differ by the sign of a zero: every step takes them to values that differ at most by
the sign of a zero. -/
namespace FormulaGraph

open Double
open Float.Model.UnpackedFloat (Sign)

/-- The second computation gives a value whenever the first does, and they are related. -/
def Succeeds {α ε : Type} (R : α → α → Prop) (x y : Except ε α) : Prop :=
  ∀ a, x = .ok a → ∃ b, y = .ok b ∧ R a b

section Succeeds

variable {α β ε : Type} {R : α → α → Prop} {S : β → β → Prop}

theorem succeeds_ok {a b : α} (h : R a b) : Succeeds (ε := ε) R (.ok a) (.ok b) := by
  intro c hc
  obtain rfl := Except.ok.inj hc
  exact ⟨b, rfl, h⟩

theorem succeeds_error (e : ε) (y : Except ε α) : Succeeds R (.error e) y := by
  intro a ha
  contradiction

theorem succeeds_refl (hR : ∀ a, R a a) (x : Except ε α) : Succeeds R x x :=
  fun a ha => ⟨a, ha, hR a⟩

theorem Succeeds.bind {x y : Except ε α} {f g : α → Except ε β} (h : Succeeds R x y)
    (hf : ∀ a b, R a b → Succeeds S (f a) (g b)) : Succeeds S (x >>= f) (y >>= g) := by
  cases x with
  | error e => exact succeeds_error e _
  | ok a =>
    obtain ⟨b, rfl, hab⟩ := h a rfl
    exact hf a b hab

end Succeeds

inductive Quantity.Alike : Quantity → Quantity → Prop
  | whole (n : Int) : Quantity.Alike (.whole n) (.whole n)
  | real {x y : Float} (h : Double.Alike x y) : Quantity.Alike (.real x) (.real y)

inductive Operand.Alike : Operand → Operand → Prop
  | number {p q : Quantity} (h : p.Alike q) : Operand.Alike (.number p) (.number q)
  | day (d : Day) : Operand.Alike (.day d) (.day d)

/-- The same value, or two zeros. -/
def Value.Alike (v w : Value) : Prop := v = w ∨ ∃ s t, v = .float (zero s) ∧ w = .float (zero t)

theorem Value.Alike.refl (v : Value) : v.Alike v := Or.inl rfl

theorem Value.alike_float {x y : Float} (h : Double.Alike x y) :
    (Value.float x).Alike (.float y) := by
  rcases h with rfl | ⟨s, t, rfl, rfl⟩
  · exact .refl _
  · exact Or.inr ⟨s, t, rfl, rfl⟩

theorem Value.Alike.isWritable_eq {v w : Value} (h : v.Alike w) : v.isWritable = w.isWritable := by
  have hfloat : ∀ x, (Value.float x).isWritable = true := fun _ => rfl
  rcases h with rfl | ⟨s, t, rfl, rfl⟩
  · rfl
  · rw [hfloat, hfloat]

theorem Quantity.Alike.refl (p : Quantity) : p.Alike p := by
  cases p with
  | whole n => exact .whole n
  | real x => exact .real (.refl x)

theorem Operand.Alike.refl (o : Operand) : o.Alike o := by
  cases o with
  | number q => exact .number (.refl q)
  | day d => exact .day d

theorem rel_refl {α : Type} {R : α → α → Prop} (h : ∀ a, R a a) (o : Option α) :
    Option.Rel R o o := by
  cases o with
  | none => exact .none
  | some a => exact .some (h a)

theorem eq_of_rel {α : Type} {o o' : Option α} (h : Option.Rel Eq o o') : o = o' := by
  cases h with
  | none => rfl
  | some heq => rw [heq]

namespace Quantity

variable {p p' q q' : Quantity}

theorem Alike.lt_eq (hp : p.Alike p') (hq : q.Alike q') : p.lt q = p'.lt q' := by
  cases hp with
  | whole m => cases hq with
    | whole n => rfl
    | real hy => exact Double.Alike.congr (f := intLt m) (by simp only [intLt, toRat?_zero]) hy
  | real hx => cases hq with
    | whole n => exact Double.Alike.congr (f := (ltInt · n)) (by simp only [ltInt, toRat?_zero]) hx
    | real hy => exact decide_eq_decide.2 (hx.lt_iff hy)

theorem Alike.toFloat (h : p.Alike q) : Succeeds Double.Alike p.toFloat q.toFloat := by
  cases h with
  | whole n => exact succeeds_refl .refl _
  | real hx => exact succeeds_ok hx

theorem Alike.truncate?_eq (h : p.Alike q) : p.truncate? = q.truncate? := by
  cases h with
  | whole n => rfl
  | real hx =>
    refine Double.Alike.congr (f := Double.truncate?) ?_ hx
    simp only [Double.truncate?, toRat?_zero]

end Quantity

namespace Operand

theorem numeric_alike {p p' q q' : Quantity} (hp : p.Alike p') (hq : q.Alike q') (op : Option Op) :
    Succeeds (Option.Rel Double.Alike) (numeric p op q) (numeric p' op q') := by
  refine hp.toFloat.bind fun x x' hx => hq.toFloat.bind fun y y' hy => ?_
  cases op with
  | none => exact succeeds_ok .none
  | some op => cases op with
    | add => exact succeeds_ok (.some (hx.add hy))
    | sub => exact succeeds_ok (.some (hx.sub hy))
    | mul => exact succeeds_ok (.some (hx.mul hy))
    | div =>
      -- both divisors are zeros, or the divisors are the same
      dsimp only
      rcases hy with rfl | ⟨s, t, rfl, rfl⟩
      · split
        · exact succeeds_error _ _
        · exact succeeds_ok (.some (hx.div_right y))
      · have hzero : (zero s == 0) = true := by cases s <;> decide
        rw [if_pos hzero]
        exact succeeds_error _ _

theorem apply_alike {l l' r r' : Option Operand} (hl : Option.Rel Operand.Alike l l')
    (hr : Option.Rel Operand.Alike r r') (op : Option Op) :
    Succeeds (Option.Rel Operand.Alike) (apply l op r) (apply l' op r') := by
  cases hl with
  | none => exact succeeds_ok .none
  | some hl => cases hr with
    | none => cases hl <;> exact succeeds_ok .none
    | some hr => cases hl with
      | day d => cases hr with
        | day e => exact succeeds_refl (rel_refl .refl) _
        | @number q q' hq =>
          have happly : ∀ q, apply (some (.day d)) op (some (.number q)) =
              .ok ((shift d op q).map .day) := fun _ => rfl
          have hshift : shift d op q = shift d op q' := by
            unfold shift
            rw [hq.truncate?_eq]
          rw [happly, happly, hshift]
          exact succeeds_refl (rel_refl .refl) _
      | number hp => cases hr with
        | day e => exact succeeds_ok .none
        | number hq =>
          refine (numeric_alike hp hq op).bind fun x y hxy => succeeds_ok ?_
          cases hxy with
          | none => exact .none
          | some h => exact .some (.number (.real h))

theorem toValue_alike {o o' : Operand} (h : o.Alike o') :
    Succeeds Value.Alike o.toValue o'.toValue := by
  cases h with
  | day d => exact succeeds_refl .refl _
  | number h => exact h.toFloat.bind fun x y hxy => succeeds_ok (Value.alike_float hxy)

end Operand

namespace Value

variable {v v' w w' : Value}

theorem operand?_zero (s : Sign) :
    (Value.float (zero s)).operand? = .ok (some (.number (.real (zero s)))) := by
  have hnan : (zero s).isNaN = false := by cases s <;> decide
  unfold Value.operand?
  simp only [hnan, Bool.false_eq_true, if_false]
  rfl

theorem Alike.operand? (h : v.Alike w) :
    Succeeds (Option.Rel Operand.Alike) v.operand? w.operand? := by
  rcases h with rfl | ⟨s, t, rfl, rfl⟩
  · exact succeeds_refl (rel_refl .refl) _
  · rw [operand?_zero, operand?_zero]
    exact succeeds_ok (.some (.number (.real (alike_zero s t))))

end Value

theorem computeValue_alike {v v' w w' : Value} (hv : v.Alike v') (hw : w.Alike w')
    (op : Option Op) : Succeeds Value.Alike (computeValue v op w) (computeValue v' op w') := by
  refine hv.operand?.bind fun a a' ha => hw.operand?.bind fun b b' hb =>
    (Operand.apply_alike ha hb op).bind fun r r' hr => ?_
  cases hr with
  | none =>
    dsimp only
    rw [hv.isWritable_eq, hw.isWritable_eq]
    exact succeeds_refl .refl _
  | some h => exact Operand.toValue_alike h

theorem roundUp_alike {v v' : Value} (hv : v.Alike v') :
    Succeeds Value.Alike (roundUp v) (roundUp v') := by
  refine hv.operand?.bind fun o o' ho => ?_
  cases ho with
  | none => exact succeeds_ok (.refl _)
  | some ho => cases ho with
    | day d => exact succeeds_ok (.refl _)
    | number hq => cases hq with
      | whole n => exact succeeds_refl .refl _
      | @real x y hx =>
        have hceil : Double.ceiling? x = Double.ceiling? y :=
          Double.Alike.congr (f := Double.ceiling?) (by simp only [Double.ceiling?, toRat?_zero]) hx
        dsimp only
        rw [hceil]
        cases Double.ceiling? y with
        | none => exact succeeds_error _ _
        | some n => exact succeeds_refl .refl _

theorem maxOf_eq {v : Value} (h : v ≠ .missing) (q : Quantity) :
    maxOf v q = v.operand? >>= raised v q := by
  cases v <;> first | contradiction | rfl

theorem maxOf_alike {v v' : Value} {q q' : Quantity} (hv : v.Alike v') (hq : q.Alike q') :
    Succeeds Value.Alike (maxOf v q) (maxOf v' q') := by
  have hthreshold : Succeeds Value.Alike (q.toFloat >>= fun x => .ok (.float x))
      (q'.toFloat >>= fun x => .ok (.float x)) :=
    hq.toFloat.bind fun x y hxy => succeeds_ok (Value.alike_float hxy)
  by_cases hmissing : v = .missing
  · subst hmissing
    rcases hv with rfl | ⟨s, t, hs, -⟩
    · exact hthreshold
    · contradiction
  · have hmissing' : v' ≠ .missing := by
      rcases hv with rfl | ⟨s, t, -, rfl⟩
      · exact hmissing
      · exact Value.noConfusion
    rw [maxOf_eq hmissing, maxOf_eq hmissing']
    refine hv.operand?.bind fun o o' ho => ?_
    cases ho with
    | none => exact succeeds_ok (.refl _)
    | some ho => cases ho with
      | day d => exact succeeds_ok (.refl _)
      | @number p p' hp =>
        unfold raised
        dsimp only
        rw [hp.lt_eq hq]
        split
        · exact hthreshold
        · exact succeeds_ok hv

namespace Evaluation

theorem holds_alike {v v' : Value} {x x' : Float} (hv : v.Alike v') (hx : Double.Alike x x')
    (comparison : Comparison) : Succeeds Eq (holds comparison v x) (holds comparison v' x') := by
  refine hv.operand?.bind fun o o' ho => ?_
  cases ho with
  | none => exact succeeds_ok rfl
  | some ho => cases ho with
    | day d => exact succeeds_ok rfl
    | number hp =>
      cases comparison with
      | below => exact succeeds_ok (hp.lt_eq (.real hx))
      | above => exact succeeds_ok (Quantity.Alike.lt_eq (.real hx) hp)
      | never => exact succeeds_ok rfl

theorem isAbsent_alike {v v' : Value} (h : v.Alike v') : isAbsent v = isAbsent v' := by
  have hfloat : ∀ x, isAbsent (.float x) = false := fun _ => rfl
  rcases h with rfl | ⟨s, t, rfl, rfl⟩
  · rfl
  · rw [hfloat, hfloat]

end Evaluation
end FormulaGraph
