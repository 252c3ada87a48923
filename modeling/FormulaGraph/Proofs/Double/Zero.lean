import FormulaGraph.Proofs.Double.Nearest

/-! The two zeros. They compare equal, and no operation tells them apart but by the sign of a zero
that it gives. -/
namespace FormulaGraph.Double

open Float.Model (Format UnpackedFloat)
open Float.Model.UnpackedFloat

def zero (s : Sign) : Float := Float.ofModel (Float.Model.pack (.zero s))

/-- The same double, or two zeros. -/
def Alike (x y : Float) : Prop := x = y ∨ ∃ s t, x = zero s ∧ y = zero t

theorem Alike.refl (x : Float) : Alike x x := Or.inl rfl

theorem alike_zero (s t : Sign) : Alike (zero s) (zero t) := Or.inr ⟨s, t, rfl, rfl⟩

theorem Alike.trans {x y z : Float} (h : Alike x y) (h' : Alike y z) : Alike x z := by
  rcases h with rfl | ⟨a, b, rfl, rfl⟩
  · exact h'
  · rcases h' with rfl | ⟨c, d, -, rfl⟩
    · exact alike_zero a b
    · exact alike_zero a d

/-- A function that gives both zeros one result does not tell alike doubles apart. -/
theorem Alike.congr {α : Type*} {f : Float → α} (hf : f (zero .positive) = f (zero .negative))
    {x y : Float} (h : Alike x y) : f x = f y := by
  rcases h with rfl | ⟨s, t, rfl, rfl⟩
  · rfl
  · cases s <;> cases t <;> simp only [hf]

theorem unpack_zero_sign (s : Sign) : (zero s).toModel.unpack = .zero s := by
  cases s <;> rfl

theorem ofMagnitude_zero (negative : Bool) :
    ofMagnitude negative 0 = zero (if negative then .negative else .positive) := by
  cases negative <;> decide

def Parts.signedValue (p : Parts) : ℚ := if p.negative then -p.value else p.value

theorem toRat?_of_parts? {x : Float} {p : Parts} (h : parts? x = some p) :
    toRat? x = some p.signedValue := by
  unfold toRat? Parts.signedValue
  rw [h, Option.map_some, ← p.quotient_value]
  dsimp only
  rw [Rat.mkRat_eq_div]
  cases p.negative with
  | false => simp
  | true => simp [neg_div]

theorem parts?_of_toRat? {x : Float} {r : ℚ} (h : toRat? x = some r) :
    ∃ p, parts? x = some p ∧ p.signedValue = r := by
  obtain ⟨p, hp, -⟩ := Option.map_eq_some_iff.1 h
  rw [toRat?_of_parts? hp, Option.some.injEq] at h
  exact ⟨p, hp, h⟩

theorem Parts.abs_signedValue (p : Parts) : |p.signedValue| = p.value := by
  unfold signedValue
  split
  · rw [abs_neg, abs_of_nonneg p.value_nonneg]
  · rw [abs_of_nonneg p.value_nonneg]

theorem Parts.Canonical.bits_eq_zero_iff {p : Parts} (hp : p.Canonical) :
    p.bits = 0 ↔ p.value = 0 := by
  rw [value_eq_zero_iff]
  constructor
  · intro h
    unfold bits at h
    omega
  · intro h
    have hexp : p.exponent = -1074 := hp.normal.resolve_right (by rw [h]; decide)
    simp [bits, h, hexp]

theorem zero_of_toRat? {x : Float} (h : toRat? x = some 0) : ∃ s, x = zero s := by
  obtain ⟨p, hp, hzero⟩ := parts?_of_toRat? h
  have hvalue : p.value = 0 := by rw [← p.abs_signedValue, hzero, abs_zero]
  have hx := ofMagnitude_parts hp
  rw [(canonical_of_parts? hp).bits_eq_zero_iff.2 hvalue, ofMagnitude_zero] at hx
  exact ⟨_, hx.symm⟩

theorem toRat?_zero (s : Sign) : toRat? (zero s) = some 0 := by
  cases s <;> decide +kernel

/-- An operation whose results for zeros are the same, or zeros. -/
def ForgetsSign (f : UnpackedFloat → UnpackedFloat) : Prop :=
  ∀ s t, f (.zero s) = f (.zero t) ∨ ∃ a b, f (.zero s) = .zero a ∧ f (.zero t) = .zero b

theorem ForgetsSign.alike {f : UnpackedFloat → UnpackedFloat} (hf : ForgetsSign f) {x y : Float}
    (h : Alike x y) : Alike (Float.ofModel (Float.Model.pack (f x.toModel.unpack)))
      (Float.ofModel (Float.Model.pack (f y.toModel.unpack))) := by
  rcases h with rfl | ⟨s, t, rfl, rfl⟩
  · exact .refl _
  rw [unpack_zero_sign, unpack_zero_sign]
  rcases hf s t with heq | ⟨a, b, ha, hb⟩
  · rw [heq]
    exact .refl _
  · rw [ha, hb]
    exact alike_zero a b

variable {x x' y y' : Float}

theorem forgetsSign_add (u : UnpackedFloat) :
    ForgetsSign (add Format.binary64 · u) ∧ ForgetsSign (add Format.binary64 u ·) := by
  unfold ForgetsSign
  cases u with
  | zero r =>
    constructor
    · intro s t
      cases r <;> cases s <;> cases t <;> exact Or.inr ⟨_, _, rfl, rfl⟩
    · intro s t
      cases r <;> cases s <;> cases t <;> exact Or.inr ⟨_, _, rfl, rfl⟩
  | _ => simp [add]

theorem Alike.add (hx : Alike x x') (hy : Alike y y') : Alike (x + y) (x' + y') :=
  ((forgetsSign_add y.toModel.unpack).1.alike hx).trans
    ((forgetsSign_add x'.toModel.unpack).2.alike hy)

theorem forgetsSign_sub (u : UnpackedFloat) :
    ForgetsSign (sub Format.binary64 · u) ∧ ForgetsSign (sub Format.binary64 u ·) := by
  unfold ForgetsSign
  cases u with
  | zero r =>
    constructor
    · intro s t
      cases r <;> cases s <;> cases t <;> exact Or.inr ⟨_, _, rfl, rfl⟩
    · intro s t
      cases r <;> cases s <;> cases t <;> exact Or.inr ⟨_, _, rfl, rfl⟩
  | _ => simp [sub]

theorem Alike.sub (hx : Alike x x') (hy : Alike y y') : Alike (x - y) (x' - y') :=
  ((forgetsSign_sub y.toModel.unpack).1.alike hx).trans
    ((forgetsSign_sub x'.toModel.unpack).2.alike hy)

theorem forgetsSign_mul (u : UnpackedFloat) :
    ForgetsSign (mul Format.binary64 · u) ∧ ForgetsSign (mul Format.binary64 u ·) := by
  unfold ForgetsSign
  cases u <;> simp [mul]

theorem Alike.mul (hx : Alike x x') (hy : Alike y y') : Alike (x * y) (x' * y') :=
  ((forgetsSign_mul y.toModel.unpack).1.alike hx).trans
    ((forgetsSign_mul x'.toModel.unpack).2.alike hy)

theorem forgetsSign_div (u : UnpackedFloat) : ForgetsSign (div Format.binary64 · u) := by
  unfold ForgetsSign
  cases u <;> simp [div]

theorem Alike.div_right (hx : Alike x x') (y : Float) : Alike (x / y) (x' / y) :=
  (forgetsSign_div y.toModel.unpack).alike hx

theorem compare_zero_left (s t : Sign) (u : UnpackedFloat) :
    UnpackedFloat.compare (.zero s) u = UnpackedFloat.compare (.zero t) u := by
  cases u with
  | infinity r => cases r <;> rfl
  | notANumber => rfl
  | zero r => rfl
  | finite r m e hm => cases r <;> rfl

theorem compare_zero_right (s t : Sign) (u : UnpackedFloat) :
    u.compare (.zero s) = u.compare (.zero t) := by
  cases u with
  | infinity r => cases r <;> rfl
  | notANumber => rfl
  | zero r => rfl
  | finite r m e hm => cases r <;> rfl

theorem Alike.compare (hx : Alike x x') (hy : Alike y y') :
    x.toModel.unpack.compare y.toModel.unpack = x'.toModel.unpack.compare y'.toModel.unpack := by
  have hl : x.toModel.unpack.compare y.toModel.unpack =
      x'.toModel.unpack.compare y.toModel.unpack := by
    rcases hx with rfl | ⟨s, t, rfl, rfl⟩
    · rfl
    · rw [unpack_zero_sign, unpack_zero_sign, compare_zero_left s t]
  rw [hl]
  rcases hy with rfl | ⟨s, t, rfl, rfl⟩
  · rfl
  · rw [unpack_zero_sign, unpack_zero_sign, compare_zero_right s t]

theorem lt_iff_compare : x < y ↔ x.toModel.unpack.compare y.toModel.unpack = some .lt := by
  have hbool : ∀ m n : Float.Model, m < n ↔ (m.unpack.compare n.unpack == some .lt) = true :=
    fun m n => Iff.rfl
  change decide (x.toModel < y.toModel) = true ↔ _
  rw [decide_eq_true_eq, hbool, beq_iff_eq]

theorem Alike.lt_iff (hx : Alike x x') (hy : Alike y y') : x < y ↔ x' < y' := by
  rw [lt_iff_compare, lt_iff_compare, hx.compare hy]

theorem Alike.beq (h : Alike x y) (hx : x.isFinite = true) : (x == y) = true := by
  rcases h with rfl | ⟨s, t, rfl, rfl⟩
  · refine Float.beq_self_iff.2 ?_
    rintro rfl
    contradiction
  · cases s <;> cases t <;> decide

end FormulaGraph.Double
