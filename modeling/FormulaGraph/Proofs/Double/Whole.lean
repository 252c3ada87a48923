import FormulaGraph.Proofs.Double.Range

/-! Whole numbers as doubles. Integers of up to 53 bits are exact and larger ones stay large, and
negation turns the sign of a value. -/
namespace FormulaGraph.Double

open Float.Model (Format UnpackedFloat)
open Float.Model.UnpackedFloat

theorem toNat_toBits_ofMagnitude {bits : ℕ} (h : bits < infinityBits) (negative : Bool) :
    (ofMagnitude negative bits).toBits.toNat = if negative then signBit + bits else bits := by
  rw [ofMagnitude, toBits_ofBits (exponent_ne_of_lt h negative), UInt64.toNat_ofNat_of_lt']
  unfold infinityBits at h
  unfold signBit UInt64.size
  split <;> omega

/-- The double of a sign and the bits of a finite magnitude has parts with that sign and bits. -/
theorem parts?_ofMagnitude {bits : ℕ} (h : bits < infinityBits) (negative : Bool) :
    ∃ p, parts? (ofMagnitude negative bits) = some p ∧ p.negative = negative ∧ p.bits = bits := by
  obtain ⟨p, hp⟩ := isFinite_iff.1 (isFinite_ofMagnitude h negative)
  have hlt := (canonical_of_parts? hp).bits_lt
  have hmade : (ofMagnitude p.negative p.bits).toBits.toNat =
      (ofMagnitude negative bits).toBits.toNat := by rw [ofMagnitude_parts hp]
  rw [toNat_toBits_ofMagnitude h, toNat_toBits_ofMagnitude hlt] at hmade
  unfold infinityBits at h hlt
  unfold signBit at hmade
  refine ⟨p, hp, ?_⟩
  cases hsign : p.negative <;> cases negative <;>
    simp only [hsign, if_true, Bool.false_eq_true, if_false, true_and, false_and] at hmade ⊢ <;>
    omega

theorem exists_parts_of_natCast {m : ℕ} (h : m < 2 ^ 53) :
    ∃ p : Parts, p.Canonical ∧ p.value = m := by
  rcases Nat.eq_zero_or_pos m with rfl | hm
  · exact ⟨⟨false, 0, -1074⟩, ⟨by decide, by decide, by decide, by decide⟩, by simp [Parts.value]⟩
  · have hlog : m.log2 < 53 := (Nat.log2_lt hm.ne').2 h
    have hle : 2 ^ m.log2 ≤ m := Nat.log2_self_le hm.ne'
    have hlt : m < 2 ^ (m.log2 + 1) := Nat.lt_log2_self
    -- the leading digit moves to the 53rd place
    obtain ⟨k, hk⟩ : ∃ k, 52 = m.log2 + k := Nat.exists_eq_add_of_le (by omega)
    have hlow : fractions ≤ m * 2 ^ k := by
      calc fractions = 2 ^ m.log2 * 2 ^ k := by rw [← pow_add, ← hk]; rfl
        _ ≤ m * 2 ^ k := Nat.mul_le_mul_right _ hle
    have hhigh : m * 2 ^ k < 2 * fractions := by
      calc m * 2 ^ k < 2 ^ (m.log2 + 1) * 2 ^ k := Nat.mul_lt_mul_of_pos_right hlt (by positivity)
        _ = 2 * fractions := by rw [← pow_add, Nat.add_right_comm, ← hk]; rfl
    refine ⟨⟨false, m * 2 ^ k, -k⟩, ⟨hhigh, by dsimp only; omega, .inr hlow, ?_⟩, ?_⟩
    · unfold Parts.bits infinityBits
      unfold fractions at *
      dsimp only
      omega
    · unfold Parts.value
      push_cast
      rw [zpow_neg, zpow_natCast, mul_assoc, mul_inv_cancel₀ (by positivity), mul_one]

/-- The double of an integer has its sign, and the magnitude that is nearest to its own. -/
theorem exists_parts_of_ofInt? {n : ℤ} {x : Float} (h : ofInt? n = some x) :
    ∃ p, parts? x = some p ∧ p.negative = decide (n < 0) ∧ p.bits = nearestBits n.natAbs 1 := by
  unfold ofInt? at h
  split at h
  · contradiction
  · rename_i hne
    obtain rfl := Option.some.inj h
    exact parts?_ofMagnitude (lt_of_le_of_ne (nearestBits_le _ _) hne) _

theorem natCast_div_one (m : ℕ) : (m / (1 : ℕ) : ℚ) = m := by
  rw [Nat.cast_one, div_one]

theorem exists_ofInt?_of_lt {n : ℤ} (h : n.natAbs < 2 ^ 53) :
    ∃ x, ofInt? n = some x ∧ toRat? x = some (n : ℚ) := by
  obtain ⟨q, hq, hvalue⟩ := exists_parts_of_natCast h
  have hbits := nearestBits_of_value hq one_pos ((natCast_div_one _).trans hvalue.symm)
  have hsome : ofInt? n = some (nearest (n < 0) n.natAbs 1) :=
    if_neg (by rw [hbits]; exact hq.bits_lt.ne)
  obtain ⟨p, hp, hsign, hpbits⟩ := exists_parts_of_ofInt? hsome
  obtain ⟨hs, he⟩ := (canonical_of_parts? hp).eq_of_bits_eq hq (hpbits.trans hbits)
  have hpvalue : p.value = n.natAbs := by
    rw [← hvalue, Parts.value, Parts.value, hs, he]
  refine ⟨_, hsome, (toRat?_of_parts? hp).trans (congrArg some ?_)⟩
  rw [Parts.signedValue, hsign, hpvalue, Nat.cast_natAbs]
  by_cases hn : n < 0
  · simp [hn, abs_of_neg hn]
  · simp [hn, abs_of_nonneg (not_lt.1 hn)]

/-- An integer of more than 53 bits has no double below the least of them. -/
theorem le_abs_of_ofInt? {n : ℤ} {x : Float} {r : ℚ} (h : ofInt? n = some x)
    (hr : toRat? x = some r) (hn : 2 ^ 53 ≤ n.natAbs) : 2 ^ 53 ≤ |r| := by
  obtain ⟨p, hp, -, hbits⟩ := exists_parts_of_ofInt? h
  obtain rfl := Option.some.inj (hr.symm.trans (toRat?_of_parts? hp))
  let least : Parts := ⟨false, fractions, 1⟩
  have hleast : least.Canonical := ⟨by decide, by decide, by decide, by decide⟩
  have hvalue : least.value = 2 ^ 53 := by
    change ((fractions : ℕ) : ℚ) * 2 ^ (1 : ℤ) = _
    norm_num [fractions]
  have hmono : nearestBits (2 ^ 53) 1 ≤ nearestBits n.natAbs 1 :=
    nearestBits_mono one_pos one_pos (by rw [natCast_div_one, natCast_div_one]; exact_mod_cast hn)
  rw [nearestBits_of_value hleast one_pos (by rw [natCast_div_one, hvalue]; norm_num), ← hbits]
    at hmono
  rw [p.abs_signedValue, ← hvalue]
  exact hleast.value_le_of_bits_le (canonical_of_parts? hp) hmono

theorem toNat_append_lt {v w : ℕ} (x : BitVec v) (y : BitVec w) :
    (x ++ y).toNat = x.toNat * 2 ^ w + y.toNat := by
  rw [BitVec.toNat_append, ← Nat.shiftLeft_add_eq_or_of_lt y.isLt, Nat.shiftLeft_eq]

/-- The word of a sign, an exponent and a fraction. -/
def fieldsWord (negative : Bool) (e m : ℕ) : ℕ :=
  (if negative then signBit else 0) + e * fractions + m

theorem toNat_packComponents (s : Sign) (e : BitVec Format.binary64.exponentBits)
    (m : BitVec Format.binary64.mantissaBitsWithoutImplicit) :
    (packComponents Format.binary64 s e m).toNat =
      fieldsWord (s == .negative) e.toNat m.toNat := by
  change (s.toBitVec ++ e ++ m).toNat = _
  rw [toNat_append_lt, toNat_append_lt]
  change (_ * 2 ^ 11 + e.toNat) * 2 ^ 52 + m.toNat = _
  unfold fieldsWord signBit fractions
  cases s
  · change (1 * 2 ^ 11 + e.toNat) * 2 ^ 52 + m.toNat = 0x8000000000000000 + _ + _
    omega
  · change (0 * 2 ^ 11 + e.toNat) * 2 ^ 52 + m.toNat = 0 + _ + _
    omega

/-- The words of a number and of its negation differ in the sign only. -/
theorem exists_fieldsWord {u : UnpackedFloat} (h : u.isFinite = true) :
    ∃ negative e m, e < 0x800 ∧ m < fractions ∧
      (pack Format.binary64 u).toNat = fieldsWord negative e m ∧
      (pack Format.binary64 u.neg).toNat = fieldsWord (!negative) e m := by
  have hfields : ∀ s e m, ∃ negative e' m', e' < 0x800 ∧ m' < fractions ∧
      (packComponents Format.binary64 s e m).toNat = fieldsWord negative e' m' ∧
      (packComponents Format.binary64 (-s) e m).toNat = fieldsWord (!negative) e' m' := by
    intro s e m
    refine ⟨_, _, _, e.isLt, m.isLt, toNat_packComponents s e m, ?_⟩
    rw [toNat_packComponents]
    cases s <;> rfl
  cases u with
  | notANumber => contradiction
  | infinity s => contradiction
  | zero s => exact hfields s _ _
  | finite s m e hm =>
    simp only [UnpackedFloat.neg, pack]
    split
    · exact hfields s _ _
    · split
      · exact hfields s _ _
      · exact hfields s _ _

variable {x : Float} {p : Parts}

theorem parts?_of_toBits {negative : Bool} {e m : ℕ} (he : e < 0x800) (hm : m < fractions)
    (h : x.toBits.toNat = fieldsWord negative e m) :
    parts? x = if e = 0x7ff then none else if e = 0 then some ⟨negative, m, -1074⟩
      else some ⟨negative, fractions + m, (e : ℤ) - 1075⟩ := by
  have hsign : decide (signBit ≤ x.toBits.toNat) = negative := by
    unfold fieldsWord signBit fractions at *
    cases negative <;> simp at h ⊢ <;> omega
  have hexponent : x.toBits.toNat / fractions % 0x800 = e := by
    unfold fieldsWord signBit fractions at *
    split at h <;> omega
  have hfraction : x.toBits.toNat % fractions = m := by
    unfold fieldsWord signBit fractions at *
    split at h <;> omega
  unfold parts?
  dsimp only
  rw [hsign, hexponent, hfraction]

theorem parts?_neg (h : parts? x = some p) :
    parts? (-x) = some { p with negative := !p.negative } := by
  obtain ⟨negative, e, m, he, hm, hword, hneg⟩ :=
    exists_fieldsWord (u := x.toModel.unpack) (isFinite_iff.2 ⟨p, h⟩)
  have hx := congrArg BitVec.toNat (pack_unpack_of_finite (parts?_eq_some_iff.1 h).1)
  rw [parts?_of_toBits he hm (hx.symm.trans hword)] at h
  rw [parts?_of_toBits (x := -x) he hm hneg]
  by_cases hones : e = 0x7ff
  · rw [if_pos hones] at h
    contradiction
  · rw [if_neg hones] at h ⊢
    by_cases hzero : e = 0
    · rw [if_pos hzero] at h ⊢
      obtain rfl := Option.some.inj h
      rfl
    · rw [if_neg hzero] at h ⊢
      obtain rfl := Option.some.inj h
      rfl

theorem toRat?_neg {r : ℚ} (h : toRat? x = some r) : toRat? (-x) = some (-r) := by
  obtain ⟨p, hp, rfl⟩ := parts?_of_toRat? h
  rw [toRat?_of_parts? (parts?_neg hp), Parts.signedValue, Parts.signedValue]
  cases p.negative
  · rfl
  · exact congrArg some (neg_neg p.value).symm

def towardZero (r : ℚ) : ℤ := if r < 0 then ⌈r⌉ else ⌊r⌋

theorem towardZero_eq (r : ℚ) : r.num.tdiv r.den = towardZero r := by
  unfold towardZero
  split
  · rename_i hneg
    have hnum : 0 ≤ -r.num := by
      have hlt := Rat.num_neg.2 hneg
      omega
    rw [Rat.ceil_def', ← Int.tdiv_eq_ediv_of_nonneg hnum, ← Int.neg_tdiv, neg_neg]
  · rename_i hnonneg
    rw [Rat.floor_def', Int.tdiv_eq_ediv_of_nonneg (Rat.num_nonneg.2 (not_lt.1 hnonneg))]

theorem truncate?_of_toRat? {r : ℚ} (h : toRat? x = some r) :
    truncate? x = some (towardZero r) := by
  rw [truncate?, h, Option.map_some, towardZero_eq]

theorem towardZero_neg (r : ℚ) : towardZero (-r) = -towardZero r := by
  unfold towardZero
  rcases lt_trichotomy r 0 with h | rfl | h
  · rw [if_neg (by linarith), if_pos h, Int.floor_neg]
  · simp
  · rw [if_pos (by linarith), if_neg (by linarith), Int.ceil_neg]

@[simp] theorem towardZero_intCast (n : ℤ) : towardZero n = n := by
  simp [towardZero]

theorem le_abs_towardZero {n : ℕ} {r : ℚ} (h : (n : ℚ) ≤ |r|) : n ≤ (towardZero r).natAbs := by
  unfold towardZero
  split
  · rename_i hneg
    rw [abs_of_neg hneg] at h
    have hceil : ⌈r⌉ ≤ -(n : ℤ) := Int.ceil_le.2 (by push_cast; linarith)
    omega
  · rename_i hnonneg
    rw [abs_of_nonneg (not_lt.1 hnonneg)] at h
    have hfloor : (n : ℤ) ≤ ⌊r⌋ := Int.le_floor.2 (by exact_mod_cast h)
    omega

end FormulaGraph.Double
