import FormulaGraph.Proofs.Double.Bits

/-! The double nearest to a quotient depends only on the value of the quotient, grows with it, and
is exact where the value is one of a double. -/
namespace FormulaGraph.Double

/-- The nearest natural, ties to even, of a rational number that is not negative. -/
def roundEven (q : ℚ) : ℕ :=
  if q - ⌊q⌋₊ < 1 / 2 ∨ q - ⌊q⌋₊ = 1 / 2 ∧ ⌊q⌋₊ % 2 = 0 then ⌊q⌋₊ else ⌊q⌋₊ + 1

theorem roundDiv_eq {num den : ℕ} (hd : 0 < den) : roundDiv num den = roundEven (num / den) := by
  have hdq : (0 : ℚ) < den := by exact_mod_cast hd
  have hfloor : ⌊(num / den : ℚ)⌋₊ = num / den := Nat.floor_div_eq_div num den
  have hsub : (num / den : ℚ) - (num / den : ℕ) = (num % den : ℕ) / den := by
    have hdiv : (den : ℚ) * (num / den : ℕ) + (num % den : ℕ) = num := by
      exact_mod_cast Nat.div_add_mod num den
    field_simp
    linarith
  have hlt : ((num % den : ℕ) / den : ℚ) < 1 / 2 ↔ 2 * (num % den) < den := by
    rw [div_lt_div_iff₀ hdq (by norm_num)]
    constructor
    · intro h
      have h' : (2 : ℚ) * (num % den : ℕ) < den := by linarith
      exact_mod_cast h'
    · intro h
      have h' : (2 : ℚ) * (num % den : ℕ) < den := by exact_mod_cast h
      linarith
  have heq : ((num % den : ℕ) / den : ℚ) = 1 / 2 ↔ 2 * (num % den) = den := by
    rw [div_eq_div_iff hdq.ne' (by norm_num)]
    constructor
    · intro h
      have h' : (2 : ℚ) * (num % den : ℕ) = den := by linarith
      exact_mod_cast h'
    · intro h
      have h' : (2 : ℚ) * (num % den : ℕ) = den := by exact_mod_cast h
      linarith
  unfold roundDiv roundEven
  rw [hfloor, hsub]
  simp only [Bool.or_eq_true, decide_eq_true_eq, Bool.and_eq_true, beq_iff_eq, hlt, heq]

theorem roundEven_mono {q r : ℚ} (h : q ≤ r) : roundEven q ≤ roundEven r := by
  have hfloor : ⌊q⌋₊ ≤ ⌊r⌋₊ := Nat.floor_mono h
  have hupper : roundEven q ≤ ⌊q⌋₊ + 1 := by unfold roundEven; split <;> omega
  have hlower : ⌊r⌋₊ ≤ roundEven r := by unfold roundEven; split <;> omega
  rcases hfloor.lt_or_eq with hlt | heq
  · omega
  · -- on the same unit interval, only the comparison with the midpoint matters
    unfold roundEven
    rw [heq]
    split
    · split <;> omega
    · rename_i hup
      rw [if_neg]
      rintro (hless | ⟨hhalf, heven⟩)
      · exact hup (Or.inl (by linarith))
      · rcases h.lt_or_eq with hqr | hqr
        · exact hup (Or.inl (by linarith))
        · exact hup (Or.inr ⟨by rw [hqr]; exact hhalf, heven⟩)

@[simp] theorem roundEven_natCast (n : ℕ) : roundEven n = n := by
  unfold roundEven
  simp

theorem roundEven_le {q : ℚ} {n : ℕ} (h : q ≤ n) : roundEven q ≤ n := by
  rw [← roundEven_natCast n]
  exact roundEven_mono h

theorem le_roundEven {q : ℚ} {n : ℕ} (h : (n : ℚ) ≤ q) : n ≤ roundEven q := by
  rw [← roundEven_natCast n]
  exact roundEven_mono h

theorem scaled_den_pos (base : ℕ) (hb : 0 < base) (e : ℤ) (num : ℕ) {den : ℕ} (hd : 0 < den) :
    0 < (scaled base e num den).2 :=
  Nat.mul_pos hd (Nat.pow_pos hb)

theorem scaled_value (base : ℕ) (hb : 0 < base) (e : ℤ) (num den : ℕ) :
    ((scaled base e num den).1 : ℚ) / (scaled base e num den).2 = num / den * (base : ℚ) ^ e := by
  have hbq : (base : ℚ) ≠ 0 := by exact_mod_cast hb.ne'
  have hsplit : (base : ℚ) ^ e = (base : ℚ) ^ e.toNat / (base : ℚ) ^ (-e).toNat := by
    rw [← zpow_natCast, ← zpow_natCast, ← zpow_sub₀ hbq]
    congr 1
    omega
  unfold scaled
  rw [hsplit]
  push_cast [Nat.pow_eq]
  rw [mul_div_mul_comm]

/-- The exponent of the last binary place of `q`, which is positive. -/
structure IsLastPlace (q : ℚ) (e : ℤ) : Prop where
  ge : -1074 ≤ e
  lt : q < 2 ^ (e + 53)
  normal : e = -1074 ∨ (2 : ℚ) ^ (e + 52) ≤ q

theorem two_zpow_lt {m n : ℤ} : (2 : ℚ) ^ m < 2 ^ n ↔ m < n :=
  zpow_lt_zpow_iff_right₀ (by norm_num)

theorem two_zpow_le {m n : ℤ} : (2 : ℚ) ^ m ≤ 2 ^ n ↔ m ≤ n :=
  zpow_le_zpow_iff_right₀ (by norm_num)

theorem two_zpow_log2_le {n : ℕ} (hn : 0 < n) : (2 : ℚ) ^ (n.log2 : ℤ) ≤ n := by
  rw [zpow_natCast]
  exact_mod_cast Nat.log2_self_le hn.ne'

theorem lt_two_zpow_log2 (n : ℕ) : (n : ℚ) < 2 ^ ((n.log2 : ℤ) + 1) := by
  have h : n < 2 ^ (n.log2 + 1) := Nat.lt_log2_self
  have hcast : ((n.log2 : ℤ) + 1) = ((n.log2 + 1 : ℕ) : ℤ) := by push_cast; rfl
  rw [hcast, zpow_natCast]
  exact_mod_cast h

theorem isLastPlace_of_bounds {q : ℚ} {e : ℤ} (hlt : q < 2 ^ (e + 53)) (hle : 2 ^ (e + 52) ≤ q) :
    IsLastPlace q (if e < -1074 then -1074 else e) := by
  split
  · rename_i h
    refine ⟨le_rfl, hlt.trans_le (two_zpow_le.2 (by omega)), Or.inl rfl⟩
  · rename_i h
    exact ⟨by omega, hlt, Or.inr hle⟩

theorem isLastPlace_lastPlace {num den : ℕ} (hn : 0 < num) (hd : 0 < den) :
    IsLastPlace (num / den) (lastPlace num den) := by
  have hdq : (0 : ℚ) < den := by exact_mod_cast hd
  have htwo : ∀ m : ℤ, (0 : ℚ) < 2 ^ m := fun m => zpow_pos (by norm_num) m
  have hupper : (num / den : ℚ) < 2 ^ ((num.log2 : ℤ) - den.log2 + 1) := by
    rw [div_lt_iff₀ hdq]
    calc (num : ℚ) < 2 ^ ((num.log2 : ℤ) + 1) := lt_two_zpow_log2 num
      _ = 2 ^ ((num.log2 : ℤ) - den.log2 + 1) * 2 ^ (den.log2 : ℤ) := by
        rw [← zpow_add₀ (by norm_num)]
        congr 1
        omega
      _ ≤ 2 ^ ((num.log2 : ℤ) - den.log2 + 1) * den :=
        mul_le_mul_of_nonneg_left (two_zpow_log2_le hd) (htwo _).le
  have hlower : (2 : ℚ) ^ ((num.log2 : ℤ) - den.log2 - 1) ≤ num / den := by
    rw [le_div_iff₀ hdq]
    calc (2 : ℚ) ^ ((num.log2 : ℤ) - den.log2 - 1) * den
        ≤ 2 ^ ((num.log2 : ℤ) - den.log2 - 1) * 2 ^ ((den.log2 : ℤ) + 1) :=
          mul_le_mul_of_nonneg_left (lt_two_zpow_log2 den).le (htwo _).le
      _ = 2 ^ (num.log2 : ℤ) := by
        rw [← zpow_add₀ (by norm_num)]
        congr 1
        omega
      _ ≤ num := two_zpow_log2_le hn
  have htest : ∀ e : ℤ, (scaled 2 (-e) num den).1 < fractions * (scaled 2 (-e) num den).2 ↔
      (num / den : ℚ) < 2 ^ (e + 52) := by
    intro e
    have hpos := scaled_den_pos 2 (by norm_num) (-e) num hd
    have hval := scaled_value 2 (by norm_num) (-e) num den
    have hposq : (0 : ℚ) < (scaled 2 (-e) num den).2 := by exact_mod_cast hpos
    rw [← @Nat.cast_lt ℚ]
    push_cast
    rw [← div_lt_iff₀ hposq, hval, Nat.cast_ofNat, zpow_neg, ← div_eq_mul_inv,
      div_lt_iff₀ (htwo e), zpow_add₀ (by norm_num), mul_comm ((2 : ℚ) ^ e)]
    norm_num [fractions]
  unfold lastPlace
  dsimp only
  simp only [htest]
  by_cases hsmall : (num / den : ℚ) < 2 ^ ((num.log2 : ℤ) - den.log2 - 52 + 52)
  · rw [if_pos hsmall]
    refine isLastPlace_of_bounds (hsmall.trans_le (two_zpow_le.2 ?_))
      ((two_zpow_le.2 ?_).trans hlower) <;> omega
  · rw [if_neg hsmall]
    refine isLastPlace_of_bounds (hupper.trans_le (two_zpow_le.2 ?_)) (not_lt.1 hsmall)
    omega

theorem IsLastPlace.le_of_le {q r : ℚ} {e f : ℤ} (hq : IsLastPlace q e) (hr : IsLastPlace r f)
    (h : q ≤ r) : e ≤ f := by
  by_contra hlt
  have hnormal := hq.normal.resolve_left fun heq => by have := hr.ge; omega
  have hstep : (2 : ℚ) ^ (e + 52) < 2 ^ (f + 53) := hnormal.trans_lt (h.trans_lt hr.lt)
  have hexp := two_zpow_lt.1 hstep
  omega

/-- The bits of the value of a positive quotient, where `e` is the exponent of its last place. -/
def bitsAt (q : ℚ) (e : ℤ) : ℕ := roundEven (q * 2 ^ (-e)) + (e + 1074).toNat * fractions

theorem nearestBits_eq {num den : ℕ} (hn : 0 < num) (hd : 0 < den) {e : ℤ}
    (he : IsLastPlace (num / den) e) :
    nearestBits num den = min (bitsAt (num / den) e) infinityBits := by
  have hplace := isLastPlace_lastPlace hn hd
  obtain rfl : lastPlace num den = e :=
    le_antisymm (hplace.le_of_le he le_rfl) (he.le_of_le hplace le_rfl)
  have hpos := scaled_den_pos 2 (by norm_num) (-lastPlace num den) num hd
  have hval := scaled_value 2 (by norm_num) (-lastPlace num den) num den
  unfold nearestBits bitsAt
  rw [if_neg hn.ne']
  dsimp only
  rw [roundDiv_eq hpos, hval, Nat.cast_ofNat]
  split <;> omega

/-- Above the least exponent, the significand has all its places. -/
theorem bitsAt_lt_bitsAt_of_lt {q r : ℚ} {e f : ℤ} (hq : IsLastPlace q e) (hr : IsLastPlace r f)
    (h : e < f) : bitsAt q e ≤ bitsAt r f := by
  have htwo : ∀ m : ℤ, (0 : ℚ) < 2 ^ m := fun m => zpow_pos (by norm_num) m
  have hge := hq.ge
  have hnormal := hr.normal.resolve_left fun heq => by omega
  have hlow : roundEven (q * 2 ^ (-e)) ≤ 2 * fractions := by
    refine roundEven_le ?_
    rw [zpow_neg, ← div_eq_mul_inv, div_le_iff₀ (htwo e)]
    have hlt := hq.lt.le
    rw [zpow_add₀ (by norm_num)] at hlt
    norm_num [fractions] at hlt ⊢
    linarith
  have hhigh : fractions ≤ roundEven (r * 2 ^ (-f)) := by
    refine le_roundEven ?_
    rw [zpow_neg, ← div_eq_mul_inv, le_div_iff₀ (htwo f)]
    rw [zpow_add₀ (by norm_num)] at hnormal
    norm_num [fractions] at hnormal ⊢
    linarith
  unfold bitsAt
  unfold fractions at *
  omega

theorem bitsAt_mono {q r : ℚ} {e f : ℤ} (hq : IsLastPlace q e) (hr : IsLastPlace r f)
    (h : q ≤ r) : bitsAt q e ≤ bitsAt r f := by
  rcases (hq.le_of_le hr h).lt_or_eq with hlt | heq
  · exact bitsAt_lt_bitsAt_of_lt hq hr hlt
  · subst heq
    refine Nat.add_le_add_right (roundEven_mono ?_) _
    exact mul_le_mul_of_nonneg_right h (zpow_nonneg (by norm_num) _)

theorem nearestBits_mono {num den num' den' : ℕ} (hd : 0 < den) (hd' : 0 < den')
    (h : (num / den : ℚ) ≤ num' / den') : nearestBits num den ≤ nearestBits num' den' := by
  rcases Nat.eq_zero_or_pos num with rfl | hn
  · unfold nearestBits
    simp
  have hn' : 0 < num' := by
    rcases Nat.eq_zero_or_pos num' with rfl | hpos
    · have hq : (0 : ℚ) < num / den := div_pos (by exact_mod_cast hn) (by exact_mod_cast hd)
      simp at h
      linarith
    · exact hpos
  have hplace := isLastPlace_lastPlace hn hd
  have hplace' := isLastPlace_lastPlace hn' hd'
  rw [nearestBits_eq hn hd hplace, nearestBits_eq hn' hd' hplace']
  exact min_le_min_right _ (bitsAt_mono hplace hplace' h)

def Parts.value (p : Parts) : ℚ := p.significand * 2 ^ p.exponent

theorem Parts.quotient_den_pos (p : Parts) : 0 < p.quotient.2 :=
  scaled_den_pos 2 (by norm_num) _ _ Nat.one_pos

theorem Parts.quotient_value (p : Parts) : (p.quotient.1 / p.quotient.2 : ℚ) = p.value := by
  have h := scaled_value 2 (by norm_num) p.exponent p.significand 1
  unfold quotient value
  rw [h]
  norm_num

theorem Parts.Canonical.isLastPlace {p : Parts} (hp : p.Canonical) :
    IsLastPlace p.value p.exponent := by
  have htwo : (0 : ℚ) < 2 ^ p.exponent := zpow_pos (by norm_num) _
  refine ⟨hp.exponent_ge, ?_, hp.normal.imp id fun h => ?_⟩
  · have hlt : (p.significand : ℚ) < 2 * fractions := by exact_mod_cast hp.significand_lt
    have hmul := mul_lt_mul_of_pos_right hlt htwo
    unfold value
    rw [zpow_add₀ (by norm_num)]
    norm_num [fractions] at hmul ⊢
    linarith
  · have hle : (fractions : ℚ) ≤ p.significand := by exact_mod_cast h
    have hmul := mul_le_mul_of_nonneg_right hle htwo.le
    unfold value
    rw [zpow_add₀ (by norm_num)]
    norm_num [fractions] at hmul ⊢
    linarith

theorem Parts.value_nonneg (p : Parts) : 0 ≤ p.value :=
  mul_nonneg (Nat.cast_nonneg _) (zpow_nonneg (by norm_num) _)

theorem Parts.value_eq_zero_iff {p : Parts} : p.value = 0 ↔ p.significand = 0 := by
  unfold value
  rw [mul_eq_zero, Nat.cast_eq_zero]
  exact or_iff_left (zpow_pos (by norm_num) _).ne'

theorem nearestBits_of_value {p : Parts} (hp : p.Canonical) {num den : ℕ} (hd : 0 < den)
    (h : (num / den : ℚ) = p.value) : nearestBits num den = p.bits := by
  have hdq : (den : ℚ) ≠ 0 := by exact_mod_cast hd.ne'
  rcases Nat.eq_zero_or_pos num with rfl | hn
  · have hzero : p.significand = 0 := by
      rw [Nat.cast_zero, zero_div] at h
      exact Parts.value_eq_zero_iff.1 h.symm
    have hexp : p.exponent = -1074 := hp.normal.resolve_right (by rw [hzero]; decide)
    unfold nearestBits Parts.bits
    simp [hzero, hexp]
  · have hplace : IsLastPlace (num / den) p.exponent := h ▸ hp.isLastPlace
    have hround : p.value * 2 ^ (-p.exponent) = p.significand := by
      unfold Parts.value
      rw [mul_assoc, ← zpow_add₀ (by norm_num), add_neg_cancel, zpow_zero, mul_one]
    have hbits : bitsAt (num / den) p.exponent = p.bits := by
      unfold bitsAt Parts.bits
      rw [h, hround, roundEven_natCast]
    rw [nearestBits_eq hn hd hplace, hbits]
    exact min_eq_left hp.bits_lt.le

/-- Magnitudes with the same bits are the same. -/
theorem Parts.Canonical.eq_of_bits_eq {p r : Parts} (hp : p.Canonical) (hr : r.Canonical)
    (h : p.bits = r.bits) : p.significand = r.significand ∧ p.exponent = r.exponent := by
  obtain ⟨hps, hpe, hpn, -⟩ := hp
  obtain ⟨hrs, hre, hrn, -⟩ := hr
  unfold bits fractions at *
  omega

theorem Parts.Canonical.value_le_of_bits_le {p r : Parts} (hp : p.Canonical) (hr : r.Canonical)
    (h : p.bits ≤ r.bits) : p.value ≤ r.value := by
  by_contra hlt
  rw [not_le] at hlt
  have hmono := nearestBits_mono r.quotient_den_pos p.quotient_den_pos
    (by rw [r.quotient_value, p.quotient_value]; exact hlt.le)
  rw [nearestBits_of_value hr r.quotient_den_pos r.quotient_value,
    nearestBits_of_value hp p.quotient_den_pos p.quotient_value] at hmono
  obtain ⟨hs, he⟩ := hp.eq_of_bits_eq hr (le_antisymm h hmono)
  unfold value at hlt
  rw [hs, he] at hlt
  exact lt_irrefl _ hlt

/-- The double nearest to the value of a finite double is this double. -/
theorem nearest_of_parts? {x : Float} {p : Parts} (hx : parts? x = some p) {num den : ℕ}
    (hd : 0 < den) (h : (num / den : ℚ) = p.value) : nearest p.negative num den = x := by
  unfold nearest
  rw [nearestBits_of_value (canonical_of_parts? hx) hd h]
  exact ofMagnitude_parts hx

end FormulaGraph.Double
