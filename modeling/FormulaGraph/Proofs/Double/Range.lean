import FormulaGraph.Double.Reader
import FormulaGraph.Proofs.Double.Plain

/-! Doubles in range. An integer has a finite double unless it is too large, and rounding a finite
double up to an integer never leads out of range. -/
namespace FormulaGraph.Double

open Float.Model (Format)
open Float.Model.UnpackedFloat

variable {x : Float}

/-- The word below the bits of infinity, with a sign, has no exponent of ones only. -/
theorem exponent_ne_of_lt {bits : Nat} (h : bits < infinityBits) (negative : Bool) :
    (UInt64.ofNat (if negative then signBit + bits else bits)).toNat / fractions % 0x800 ≠
      0x7ff := by
  unfold infinityBits at h
  cases negative with
  | false =>
    rw [if_neg (by decide), UInt64.toNat_ofNat_of_lt' (by unfold UInt64.size; omega)]
    unfold fractions
    omega
  | true =>
    rw [if_pos rfl, UInt64.toNat_ofNat_of_lt' (by unfold signBit UInt64.size; omega)]
    unfold fractions signBit
    omega

/-- A word whose exponent is not of ones only is that of a number. -/
theorem pack_unpack_of_finite {w : UInt64} (h : w.toNat / fractions % 0x800 ≠ 0x7ff) :
    pack Format.binary64 (@unpack Format.binary64 w.toBitVec) = w.toBitVec := by
  have hone : (@unpackExponent Format.binary64 w.toBitVec).toNat ≠ 0x7ff := by
    rwa [toNat_unpackExponent]
  have hnan : @isNaNBits Format.binary64 w.toBitVec = false := by
    unfold isNaNBits
    rw [decide_eq_false_iff_not]
    rintro ⟨h, -⟩
    exact hone (by rw [h]; rfl)
  have hpack := @pack_unpack Format.binary64 w.toBitVec (by decide)
  rwa [hnan] at hpack

theorem toBits_ofBits {w : UInt64} (h : w.toNat / fractions % 0x800 ≠ 0x7ff) :
    (Float.ofBits w).toBits = w :=
  UInt64.toBitVec_inj.1 (pack_unpack_of_finite h)

theorem isFinite_ofMagnitude {bits : Nat} (h : bits < infinityBits) (negative : Bool) :
    (ofMagnitude negative bits).isFinite = true := by
  have hexponent := exponent_ne_of_lt h negative
  have hfinite : (ofMagnitude negative bits).isFinite =
      (@unpack Format.binary64 (ofMagnitude negative bits).toBits.toBitVec).isFinite := rfl
  rw [hfinite, isFinite_unpack_iff, toNat_unpackExponent, ofMagnitude, toBits_ofBits hexponent]
  exact hexponent

theorem isFinite_of_ofInt? {n : ℤ} (h : ofInt? n = some x) : x.isFinite = true := by
  unfold ofInt? at h
  split at h
  · contradiction
  · rename_i hne
    rw [← Option.some.inj h]
    exact isFinite_ofMagnitude (lt_of_le_of_ne (nearestBits_le _ _) hne) _

theorem lt_of_ofInt? {n : ℤ} (h : ofInt? n = some x) : n.natAbs < 2 ^ 1024 := by
  by_contra hge
  have hle : (((2 ^ 1024 : ℕ) : ℚ) / (1 : ℕ)) ≤ n.natAbs / (1 : ℕ) := by
    rw [Nat.cast_one, div_one, div_one]
    exact_mod_cast not_lt.1 hge
  have hlimit : nearestBits (2 ^ 1024) 1 = infinityBits := by decide +kernel
  have hinfinite := hlimit.ge.trans (nearestBits_mono one_pos one_pos hle)
  unfold ofInt? at h
  rw [if_pos (le_antisymm (nearestBits_le _ _) hinfinite)] at h
  contradiction

theorem isFinite_of_finite? {cs : List Char} (h : finite? cs = some x) : x.isFinite = true := by
  unfold finite? at h
  exact (Option.filter_eq_some_iff.1 h).2

theorem not_isNaN_of_isFinite (h : x.isFinite = true) : x.isNaN = false := by
  rw [Float.isNaN_eq_decide_eq_nan, decide_eq_false_iff_not]
  rintro rfl
  contradiction

theorem isInf_of_not_isFinite (h : x.isFinite = false) (hnan : x.isNaN = false) :
    x.isInf = true := by
  have hfinite : x.isFinite = x.toModel.unpack.isFinite := rfl
  have hisNaN : x.isNaN = x.toModel.unpack.isNaN := rfl
  have hinf : x.isInf = x.toModel.unpack.isInf := rfl
  rw [hfinite] at h
  rw [hisNaN] at hnan
  rw [hinf]
  cases hu : x.toModel.unpack with
  | infinity s => rfl
  | notANumber => rw [hu] at hnan; contradiction
  | zero s => rw [hu] at h; contradiction
  | finite s m e hm => rw [hu] at h; contradiction

/-- Without a fraction in its exponent a value is below two to the power of 53. -/
theorem Parts.value_lt_of_exponent_neg {p : Parts} (hp : p.Canonical) (h : p.exponent < 0) :
    p.value < 2 ^ 53 := by
  have hs : (p.significand : ℚ) < 2 ^ 53 := by
    have hlt := hp.significand_lt
    unfold fractions at hlt
    exact_mod_cast (by omega : p.significand < 2 ^ 53)
  have hexp : (2 : ℚ) ^ p.exponent ≤ 1 := zpow_le_one_of_nonpos₀ (by norm_num) h.le
  have hpos : (0 : ℚ) ≤ 2 ^ p.exponent := (zpow_pos (by norm_num) _).le
  unfold Parts.value
  calc (p.significand : ℚ) * 2 ^ p.exponent ≤ p.significand * 1 :=
        mul_le_mul_of_nonneg_left hexp (Nat.cast_nonneg _)
    _ = p.significand := mul_one _
    _ < 2 ^ 53 := hs

theorem exists_ceiling? (h : x.isFinite = true) : ∃ n, ceiling? x = some n := by
  obtain ⟨p, hp⟩ := isFinite_iff.1 h
  exact ⟨_, Option.map_eq_some_iff.2 ⟨_, toRat?_of_parts? hp, rfl⟩⟩

/-- The least integer not below a finite double has a double. -/
theorem exists_ofInt?_of_ceiling? {n : ℤ} (h : ceiling? x = some n) : ∃ y, ofInt? n = some y := by
  have hbits : nearestBits n.natAbs 1 < infinityBits := by
    obtain ⟨r, hr, rfl⟩ := Option.map_eq_some_iff.1 h
    obtain ⟨p, hp, hpr⟩ := parts?_of_toRat? hr
    have hcanonical := canonical_of_parts? hp
    cases hint : toInt? x with
    | some m =>
      have hm := toInt?_eq_some_iff.1 hint
      obtain rfl : r = (m : ℚ) := Option.some.inj (hr.symm.trans hm)
      have hceil : (m : ℚ).ceil = m := by simp
      rw [hceil, nearestBits_of_value hcanonical one_pos]
      · exact hcanonical.bits_lt
      · obtain ⟨hvalue, -⟩ := value_of_toInt? hp hint
        rw [← hvalue]
        simp [Decimal.value]
    | none =>
      have hexp : p.exponent < 0 := by
        by_contra hge
        obtain ⟨m, hm⟩ := toInt?_of_exponent_nonneg hp (not_lt.1 hge)
        rw [hm] at hint
        contradiction
      have hlt := Parts.value_lt_of_exponent_neg hcanonical hexp
      rw [← p.abs_signedValue, hpr, abs_lt] at hlt
      have hle : (r.ceil).natAbs ≤ 2 ^ 53 := by
        have hupper : r.ceil ≤ 2 ^ 53 := Rat.ceil_le_iff.2 (by exact_mod_cast hlt.2.le)
        have hlower : -(2 ^ 53) ≤ r.ceil := by
          have hcast : (-(2 ^ 53) : ℚ) ≤ (r.ceil : ℚ) := hlt.1.le.trans Rat.le_ceil
          exact_mod_cast hcast
        omega
      have hquotient : ((r.ceil.natAbs : ℕ) / (1 : ℕ) : ℚ) ≤ ((2 ^ 53 : ℕ) : ℚ) / (1 : ℕ) := by
        rw [Nat.cast_one, div_one, div_one]
        exact_mod_cast hle
      exact lt_of_le_of_lt (nearestBits_mono one_pos one_pos hquotient) (by decide)
  exact ⟨_, if_neg hbits.ne⟩

end FormulaGraph.Double
