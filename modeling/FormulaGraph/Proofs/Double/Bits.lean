import Mathlib
import FormulaGraph.Double.Basic

/-! The bits of doubles: a finite double is made again from its sign and its magnitude bits. -/
namespace FormulaGraph.Double

open Float.Model (Format)
open Float.Model.UnpackedFloat

theorem isFinite_unpack_iff {b : BitVec Format.binary64.numBits} :
    (unpack Format.binary64 b).isFinite = true ↔ (unpackExponent b).toNat ≠ 0x7ff := by
  have hones : unpackExponent b = -1#_ ↔ (unpackExponent b).toNat = 0x7ff :=
    ⟨fun h => by rw [h]; rfl, fun h => BitVec.eq_of_toNat_eq h⟩
  unfold unpack
  dsimp only
  split
  · rename_i h
    have hnat := hones.1 h
    split <;> simp [isFinite, hnat]
  · rename_i h
    have hnat := mt hones.2 h
    split
    · split <;> simp [isFinite, hnat]
    · simp [isFinite, hnat]

theorem toNat_unpackExponent (w : UInt64) :
    (@unpackExponent Format.binary64 w.toBitVec).toNat = w.toNat / fractions % 0x800 := by
  change (w.toNat >>> 52) % 2 ^ 11 = _
  rw [Nat.shiftRight_eq_div_pow]
  rfl

def Parts.bits (p : Parts) : Nat := p.significand + (p.exponent + 1074).toNat * fractions

/-- What parts a double can have: a significand of 53 bits, the highest of which is missing only
next to the least exponent. -/
structure Parts.Canonical (p : Parts) : Prop where
  significand_lt : p.significand < 2 * fractions
  exponent_ge : -1074 ≤ p.exponent
  normal : p.exponent = -1074 ∨ fractions ≤ p.significand
  bits_lt : p.bits < infinityBits

variable {x : Float} {p : Parts}

/-- The parts of a finite double, by cases on its exponent bits. -/
theorem parts?_eq_some_iff : parts? x = some p ↔
    let bits := x.toBits.toNat
    bits / fractions % 0x800 ≠ 0x7ff ∧
      p = if bits / fractions % 0x800 = 0 then ⟨signBit ≤ bits, bits % fractions, -1074⟩
        else ⟨signBit ≤ bits, fractions + bits % fractions,
          ((bits / fractions % 0x800 : Nat) : Int) - 1075⟩ := by
  unfold parts?
  dsimp only
  by_cases h : x.toBits.toNat / fractions % 0x800 = 0x7ff
  · simp [h]
  · by_cases h0 : x.toBits.toNat / fractions % 0x800 = 0
    · simp [h0, eq_comm]
    · simp [h, h0, eq_comm]

theorem bits_subnormal (negative : Bool) (fraction : Nat) :
    (⟨negative, fraction, -1074⟩ : Parts).bits = fraction := by
  simp [Parts.bits]

theorem bits_normal (negative : Bool) (fraction biased : Nat) (h : biased ≠ 0) :
    (⟨negative, fractions + fraction, (biased : Int) - 1075⟩ : Parts).bits =
      biased * fractions + fraction := by
  unfold Parts.bits fractions
  dsimp only
  omega

theorem canonical_of_parts? (h : parts? x = some p) : p.Canonical := by
  obtain ⟨hfinite, rfl⟩ := parts?_eq_some_iff.1 h
  have hfraction : x.toBits.toNat % fractions < fractions := Nat.mod_lt _ (by decide)
  have hbiased : x.toBits.toNat / fractions % 0x800 < 0x800 := Nat.mod_lt _ (by decide)
  generalize x.toBits.toNat / fractions % 0x800 = biased at *
  generalize x.toBits.toNat % fractions = fraction at *
  by_cases h0 : biased = 0
  · rw [if_pos h0]
    refine ⟨?_, le_rfl, Or.inl rfl, ?_⟩
    · dsimp only
      omega
    · rw [bits_subnormal]
      unfold fractions at hfraction
      unfold infinityBits
      omega
  · rw [if_neg h0]
    refine ⟨?_, ?_, Or.inr ?_, ?_⟩
    · dsimp only
      omega
    · dsimp only
      omega
    · dsimp only
      omega
    · rw [bits_normal _ _ _ h0]
      unfold fractions at *
      unfold infinityBits
      omega

/-- A finite double is made again from its sign and its magnitude. -/
theorem ofMagnitude_parts (h : parts? x = some p) : ofMagnitude p.negative p.bits = x := by
  have hbits : (if p.negative = true then signBit + p.bits else p.bits) = x.toBits.toNat := by
    obtain ⟨hfinite, rfl⟩ := parts?_eq_some_iff.1 h
    have hlt : x.toBits.toNat < 2 ^ 64 := x.toBits.toNat_lt
    generalize x.toBits.toNat = bits at *
    by_cases h0 : bits / fractions % 0x800 = 0
    · rw [if_pos h0, bits_subnormal]
      by_cases hs : signBit ≤ bits
      · simp only [hs, decide_true, if_true]
        unfold signBit fractions at *
        omega
      · simp only [hs, decide_false]
        unfold signBit fractions at *
        simp only [Bool.false_eq_true, if_false]
        omega
    · rw [if_neg h0, bits_normal _ _ _ h0]
      by_cases hs : signBit ≤ bits
      · simp only [hs, decide_true, if_true]
        unfold signBit fractions at *
        omega
      · simp only [hs, decide_false]
        unfold signBit fractions at *
        simp only [Bool.false_eq_true, if_false]
        omega
  unfold ofMagnitude
  rw [hbits, UInt64.ofNat_toNat, Float.ofBits_toBits]

theorem isFinite_iff : x.isFinite = true ↔ ∃ p, parts? x = some p := by
  have hfinite : x.isFinite = (@unpack Format.binary64 x.toBits.toBitVec).isFinite := rfl
  rw [hfinite, isFinite_unpack_iff, toNat_unpackExponent]
  simp only [parts?_eq_some_iff, exists_and_left, exists_eq, and_true]

end FormulaGraph.Double
