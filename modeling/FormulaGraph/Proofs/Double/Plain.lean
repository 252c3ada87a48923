import FormulaGraph.Proofs.Double.Text
import FormulaGraph.Proofs.Double.Zero

/-! Which doubles are written without an exponent: zero, and those at least `0.0001` away from it,
where all large ones are integers. -/
namespace FormulaGraph.Double

def IsPlain (x : Float) : Prop := ∃ r, toRat? x = some r ∧ (r = 0 ∨ 1 / 10000 ≤ |r|)

namespace Parts

def leastPlain : Parts := ⟨false, 7378697629483821, -66⟩

/-- The greatest magnitude below it. -/
def belowPlain : Parts := ⟨false, 7378697629483820, -66⟩

theorem canonical_leastPlain : leastPlain.Canonical :=
  ⟨by decide, by decide, by decide, by decide⟩

theorem canonical_belowPlain : belowPlain.Canonical :=
  ⟨by decide, by decide, by decide, by decide⟩

theorem bits_leastPlain : Decimal.bits ⟨1, -4⟩ = leastPlain.bits := by decide +kernel

theorem lead_leastPlain : leastPlain.shortest.lead = -4 := by decide +kernel

theorem lt_value_leastPlain : 1 / 10000 ≤ leastPlain.value := by
  unfold value leastPlain
  norm_num

theorem value_belowPlain_lt : belowPlain.value < 1 / 10000 := by
  unfold value belowPlain
  norm_num

variable {p : Parts}

theorem shortest_congr {r : Parts} (h : p.significand = r.significand ∧ p.exponent = r.exponent) :
    p.shortest = r.shortest := by
  obtain ⟨n, s, e⟩ := p
  obtain ⟨m, s', e'⟩ := r
  obtain ⟨rfl, rfl⟩ := h
  rfl

theorem digits_shortest_ne_zero (hp : p.Canonical) (h : p.value ≠ 0) :
    p.shortest.digits ≠ 0 := by
  intro hzero
  have hbits : p.shortest.bits = 0 := by
    unfold Decimal.bits Decimal.quotient scaled nearestBits
    rw [hzero]
    simp
  rw [bits_shortest hp] at hbits
  exact h (hp.bits_eq_zero_iff.1 hbits)

/-- The text of a magnitude has its first digit not below the fourth place behind the point just
if the magnitude is not below `0.0001`. -/
theorem neg_four_le_lead_iff (hp : p.Canonical) (h : p.value ≠ 0) :
    -4 ≤ p.shortest.lead ↔ 1 / 10000 ≤ p.value := by
  have hbounds := Decimal.value_bounds (digits_shortest_ne_zero hp h)
  have htiny : Decimal.value ⟨1, -4⟩ = 10 ^ (-4 : ℤ) := by simp [Decimal.value]
  have hmono : ∀ m n : ℤ, m ≤ n → (10 : ℚ) ^ m ≤ 10 ^ n := fun m n =>
    zpow_le_zpow_right₀ (by norm_num)
  constructor
  · intro hlead
    have hle : Decimal.value ⟨1, -4⟩ ≤ p.shortest.value := by
      rw [htiny]
      exact (hmono _ _ hlead).trans hbounds.1
    have hbits := Decimal.bits_mono hle
    rw [bits_shortest hp, bits_leastPlain] at hbits
    exact lt_value_leastPlain.trans (canonical_leastPlain.value_le_of_bits_le hp hbits)
  · intro hvalue
    by_contra hlead
    have hle : p.shortest.value ≤ Decimal.value ⟨1, -4⟩ := by
      rw [htiny]
      exact hbounds.2.le.trans (hmono _ _ (by omega))
    have hbits := Decimal.bits_mono hle
    rw [bits_shortest hp, bits_leastPlain] at hbits
    rcases hbits.lt_or_eq with hlt | heq
    · have hbelow : p.bits ≤ belowPlain.bits := Nat.le_of_lt_succ hlt
      have hsmall := hp.value_le_of_bits_le canonical_belowPlain hbelow
      exact absurd (hsmall.trans_lt value_belowPlain_lt) (not_lt.2 hvalue)
    · rw [shortest_congr (hp.eq_of_bits_eq canonical_leastPlain heq), lead_leastPlain] at hlead
      exact hlead le_rfl

/-- Magnitudes with a first digit so far in front of the point are integers. -/
theorem exponent_nonneg_of_lead (hp : p.Canonical) (h : p.value ≠ 0)
    (hlead : 16 ≤ p.shortest.lead) : 0 ≤ p.exponent := by
  have hbounds := Decimal.value_bounds (digits_shortest_ne_zero hp h)
  have hle : Decimal.value ⟨1, 16⟩ ≤ p.shortest.value := by
    have hpow : (10 : ℚ) ^ (16 : ℤ) ≤ 10 ^ p.shortest.lead :=
      zpow_le_zpow_right₀ (by norm_num) hlead
    have hone : Decimal.value ⟨1, 16⟩ = 10 ^ (16 : ℤ) := by simp [Decimal.value]
    rw [hone]
    exact hpow.trans hbounds.1
  have hbits := Decimal.bits_mono hle
  have hsixteen : Decimal.bits ⟨1, 16⟩ = 4846369599423283200 := by decide +kernel
  rw [bits_shortest hp, hsixteen] at hbits
  have hs := hp.significand_lt
  unfold bits fractions at *
  omega

end Parts

variable {x : Float} {p : Parts}

theorem toInt?_eq_some_iff {n : ℤ} : toInt? x = some n ↔ toRat? x = some (n : ℚ) := by
  unfold toInt?
  rw [Option.bind_eq_some_iff]
  constructor
  · rintro ⟨r, hr, hn⟩
    split at hn
    · rename_i hden
      rw [hr, ← Option.some.inj hn, Rat.coe_int_num_of_den_eq_one hden]
    · contradiction
  · intro h
    exact ⟨n, h, by simp⟩

theorem toInt?_of_exponent_nonneg (hx : parts? x = some p) (h : 0 ≤ p.exponent) :
    ∃ n, toInt? x = some n := by
  have hvalue : p.value = ((p.significand * 2 ^ p.exponent.toNat : ℕ) : ℚ) := by
    have hexp : p.exponent = (p.exponent.toNat : ℤ) := by omega
    have hpow : (2 : ℚ) ^ p.exponent = 2 ^ p.exponent.toNat := by
      rw [← zpow_natCast]
      exact congrArg _ hexp
    unfold Parts.value
    rw [hpow]
    push_cast
    rfl
  have hrat := toRat?_of_parts? hx
  unfold Parts.signedValue at hrat
  rw [hvalue] at hrat
  split at hrat
  · exact ⟨-(p.significand * 2 ^ p.exponent.toNat : ℕ), toInt?_eq_some_iff.2 (by rw [hrat]; simp)⟩
  · exact ⟨(p.significand * 2 ^ p.exponent.toNat : ℕ), toInt?_eq_some_iff.2 (by rw [hrat]; simp)⟩

/-- An integer has the magnitude of the double it is equal to, and its sign unless it is zero. -/
theorem value_of_toInt? (hx : parts? x = some p) {n : ℤ} (h : toInt? x = some n) :
    Decimal.value ⟨n.natAbs, 0⟩ = p.value ∧ (n ≠ 0 → decide (n < 0) = p.negative) := by
  rw [toInt?_eq_some_iff, toRat?_of_parts? hx, Option.some.injEq] at h
  constructor
  · rw [← p.abs_signedValue, h]
    simp [Decimal.value]
  · intro hn
    have hnonneg := p.value_nonneg
    unfold Parts.signedValue at h
    split at h
    · rename_i hneg
      have hle : (n : ℚ) ≤ 0 := by rw [← h]; linarith
      have hint : n ≤ 0 := by exact_mod_cast hle
      rw [hneg, decide_eq_true_eq]
      omega
    · rename_i hpos
      have hle : (0 : ℚ) ≤ n := by rw [← h]; exact hnonneg
      have hint : 0 ≤ n := by exact_mod_cast hle
      rw [Bool.not_eq_true] at hpos
      rw [hpos, decide_eq_false_iff_not]
      omega

end FormulaGraph.Double
