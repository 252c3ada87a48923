import FormulaGraph.Double.Shortest
import FormulaGraph.Proofs.Double.Nearest

/-! Decimals and doubles: reading a decimal gives the double nearest to its value, whatever its
exponent, and the shortest decimal of a double reads back as this double. -/
namespace FormulaGraph.Double

def Decimal.value (d : Decimal) : ℚ := d.digits * 10 ^ d.exponent

theorem Decimal.quotient_den_pos (d : Decimal) : 0 < d.quotient.2 :=
  scaled_den_pos 10 (by norm_num) _ _ Nat.one_pos

theorem Decimal.quotient_value (d : Decimal) : (d.quotient.1 / d.quotient.2 : ℚ) = d.value := by
  have h := scaled_value 10 (by norm_num) d.exponent d.digits 1
  unfold quotient value
  rw [h]
  norm_num

theorem Decimal.bits_mono {c d : Decimal} (h : c.value ≤ d.value) : c.bits ≤ d.bits := by
  unfold bits
  refine nearestBits_mono c.quotient_den_pos d.quotient_den_pos ?_
  rw [c.quotient_value, d.quotient_value]
  exact h

theorem Decimal.bits_of_value {d : Decimal} {p : Parts} (hp : p.Canonical)
    (h : d.value = p.value) : d.bits = p.bits :=
  nearestBits_of_value hp d.quotient_den_pos (d.quotient_value.trans h)

theorem nearestBits_le (num den : ℕ) : nearestBits num den ≤ infinityBits := by
  unfold nearestBits
  split
  · exact Nat.zero_le _
  · dsimp only
    split <;> omega

theorem Decimal.bits_of_large {d : Decimal} (hd : d.digits ≠ 0) (he : 310 < d.exponent) :
    d.bits = infinityBits := by
  have htop : Decimal.bits ⟨1, 310⟩ = infinityBits := by decide +kernel
  refine le_antisymm (nearestBits_le _ _) (htop ▸ bits_mono ?_)
  have hone : (1 : ℚ) ≤ d.digits := by exact_mod_cast Nat.one_le_iff_ne_zero.2 hd
  have hpow : (10 : ℚ) ^ (310 : ℤ) ≤ 10 ^ d.exponent :=
    zpow_le_zpow_right₀ (by norm_num) he.le
  unfold value
  exact mul_le_mul (by exact_mod_cast hone) hpow (zpow_nonneg (by norm_num) _)
    (Nat.cast_nonneg _)

theorem Decimal.bits_of_small {d : Decimal} (he : d.exponent < -((d.digits.log2 : ℤ) + 400)) :
    d.bits = 0 := by
  have hbottom : Decimal.bits ⟨1, -400⟩ = 0 := by decide +kernel
  refine Nat.le_zero.1 (hbottom ▸ bits_mono ?_)
  have hdigits : (d.digits : ℚ) ≤ 10 ^ ((d.digits.log2 : ℤ) + 1) :=
    (lt_two_zpow_log2 d.digits).le.trans
      (zpow_le_zpow_left₀ (by omega) (by norm_num) (by norm_num))
  have hpow : (0 : ℚ) < 10 ^ d.exponent := zpow_pos (by norm_num) _
  unfold value
  calc (d.digits : ℚ) * 10 ^ d.exponent
      ≤ 10 ^ ((d.digits.log2 : ℤ) + 1) * 10 ^ d.exponent :=
        mul_le_mul_of_nonneg_right hdigits hpow.le
    _ = 10 ^ ((d.digits.log2 : ℤ) + 1 + d.exponent) := by rw [← zpow_add₀ (by norm_num)]
    _ ≤ 10 ^ (-400 : ℤ) := zpow_le_zpow_right₀ (by norm_num) (by omega)
    _ = (1 : ℕ) * 10 ^ (-400 : ℤ) := by norm_num

/-- What is decided before any power is computed is what the powers would give. -/
theorem ofDecimal_eq (negative : Bool) (digits : ℕ) (exponent : ℤ) :
    ofDecimal negative digits exponent =
      ofMagnitude negative (Decimal.bits ⟨digits, exponent⟩) := by
  unfold ofDecimal
  split
  · rename_i h
    subst h
    have hzero : Decimal.bits ⟨0, exponent⟩ = 0 := by
      simp [Decimal.bits, Decimal.quotient, scaled, nearestBits]
    rw [hzero]
    rfl
  rename_i hd
  dsimp only
  split
  · rename_i he
    rw [Decimal.bits_of_large hd he]
    rfl
  split
  · rename_i he
    rw [Decimal.bits_of_small he]
    rfl
  · rfl

/-- A decimal with the bits of a finite double reads back as this double. -/
theorem ofDecimal_of_bits {x : Float} {p : Parts} (hx : parts? x = some p) {digits : ℕ}
    {exponent : ℤ} (h : Decimal.bits ⟨digits, exponent⟩ = p.bits) :
    ofDecimal p.negative digits exponent = x := by
  rw [ofDecimal_eq, h, ofMagnitude_parts hx]

theorem roundDiv_eq_or (num den : ℕ) :
    roundDiv num den = num / den ∨ roundDiv num den = num / den + 1 := by
  unfold roundDiv
  dsimp only
  split
  · exact Or.inl rfl
  · exact Or.inr rfl

theorem bits_of_neighbour? {bits num den : ℕ} {exponent : ℤ} {d : Decimal}
    (h : neighbour? bits num den exponent = some d) : d.bits = bits := by
  unfold neighbour? at h
  dsimp only at h
  split at h
  · rename_i hboth
    rw [Bool.and_eq_true, beq_iff_eq, beq_iff_eq] at hboth
    obtain rfl := Option.some.inj h
    rcases roundDiv_eq_or (scaled 10 (-exponent) num den).1
      (scaled 10 (-exponent) num den).2 with hlow | hhigh
    · rw [hlow]
      exact hboth.1
    · rw [hhigh]
      exact hboth.2
  split at h
  · rename_i hlow
    obtain rfl := Option.some.inj h
    exact beq_iff_eq.1 hlow
  split at h
  · rename_i hhigh
    obtain rfl := Option.some.inj h
    exact beq_iff_eq.1 hhigh
  · contradiction

theorem value_decimal (p : Parts) : p.decimal.value = p.value := by
  unfold Parts.decimal Decimal.value Parts.value
  dsimp only
  push_cast [Nat.pow_eq]
  split
  · rename_i he
    have hnat : p.exponent.toNat = 0 := by omega
    have hneg : p.exponent = -((-p.exponent).toNat : ℤ) := by omega
    have hten : (10 : ℚ) = 2 * 5 := by norm_num
    rw [hnat, pow_zero, mul_one, hten, mul_zpow, mul_assoc]
    congr 1
    rw [hneg, zpow_neg, zpow_neg, zpow_natCast, zpow_natCast]
    simp only [neg_neg, Int.toNat_natCast]
    field_simp
  · rename_i he
    have hnat : (-p.exponent).toNat = 0 := by omega
    have hpos : p.exponent = (p.exponent.toNat : ℤ) := by omega
    rw [hnat, pow_zero, mul_one, zpow_zero, mul_one]
    conv_rhs => rw [hpos, zpow_natCast]

/-- The shortest decimal of a double reads back as this double. -/
theorem bits_shortest {p : Parts} (hp : p.Canonical) : p.shortest.bits = p.bits := by
  have hself : nearestBits p.quotient.1 p.quotient.2 = p.bits :=
    nearestBits_of_value hp p.quotient_den_pos p.quotient_value
  unfold Parts.shortest
  dsimp only
  rw [hself]
  generalize hgrids : List.findSome? (neighbour? p.bits p.quotient.1 p.quotient.2) _ = found
  cases found with
  | none => exact Decimal.bits_of_value hp (value_decimal p)
  | some d =>
    obtain ⟨exponent, -, hd⟩ := List.exists_of_findSome?_eq_some hgrids
    exact bits_of_neighbour? hd

end FormulaGraph.Double
