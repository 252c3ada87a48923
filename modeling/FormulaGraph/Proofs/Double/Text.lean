import FormulaGraph.Proofs.Double.Decimal
import FormulaGraph.Proofs.Double.Digits

/-! How the text of a double reads back, with an exponent and without. -/
namespace FormulaGraph.Double

open Text

theorem dropTrailingZeros_append (cs : List Char) :
    ∃ n, cs = dropTrailingZeros cs ++ List.replicate n '0' := by
  refine ⟨(cs.reverse.takeWhile (· == '0')).length, ?_⟩
  have hzeros : cs.reverse.takeWhile (· == '0') =
      List.replicate (cs.reverse.takeWhile (· == '0')).length '0' := by
    refine List.eq_replicate_of_mem fun c hc => ?_
    have hc' : (c == '0') = true := @List.mem_takeWhile_imp _ (· == '0') _ _ hc
    exact beq_iff_eq.1 hc'
  have hsplit : cs.reverse.takeWhile (· == '0') ++ cs.reverse.dropWhile (· == '0') = cs.reverse :=
    List.takeWhile_append_dropWhile
  have h := congrArg List.reverse hsplit
  rw [List.reverse_append, List.reverse_reverse] at h
  unfold dropTrailingZeros
  conv_lhs => rw [← h]
  congr 1
  conv_lhs => rw [hzeros]
  rw [List.reverse_replicate]

def Decimal.written (d : Decimal) : List Char := dropTrailingZeros (Nat.toDigits 10 d.digits)

def Decimal.lead (d : Decimal) : ℤ := d.exponent + (Nat.toDigits 10 d.digits).length - 1

/-- The value that digits have if the first one has the exponent `lead`. -/
def placedValue (digits : List Char) (lead : ℤ) : ℚ :=
  readDigits 0 digits * 10 ^ (lead + 1 - digits.length)

namespace Decimal

theorem isDigits_written (d : Decimal) : IsDigits d.written := by
  obtain ⟨n, hn⟩ := dropTrailingZeros_append (Nat.toDigits 10 d.digits)
  intro c hc
  refine isDigits_toDigits d.digits c ?_
  rw [hn]
  exact List.mem_append_left _ hc

theorem placedValue_written (d : Decimal) : placedValue d.written d.lead = d.value := by
  obtain ⟨n, hn⟩ := dropTrailingZeros_append (Nat.toDigits 10 d.digits)
  have hdigits : d.digits = readDigits 0 d.written * 10 ^ n := by
    rw [← readDigits_zeros, ← readDigits_append]
    unfold written
    rw [← hn, readDigits_toDigits]
  have hlength : (Nat.toDigits 10 d.digits).length = d.written.length + n := by
    have h := congrArg List.length hn
    rwa [List.length_append, List.length_replicate] at h
  have hexp : d.lead + 1 - d.written.length = (n : ℤ) + d.exponent := by
    unfold lead
    omega
  unfold placedValue value
  conv_rhs => rw [hdigits]
  rw [hexp, zpow_add₀ (by norm_num), zpow_natCast]
  push_cast
  ring

theorem written_ne_nil {d : Decimal} (h : d.digits ≠ 0) : d.written ≠ [] := by
  intro hnil
  obtain ⟨n, hn⟩ := dropTrailingZeros_append (Nat.toDigits 10 d.digits)
  have hzero : dropTrailingZeros (Nat.toDigits 10 d.digits) = [] := hnil
  rw [hzero, List.nil_append] at hn
  have hread := readDigits_toDigits d.digits
  rw [hn, readDigits_zeros, Nat.zero_mul] at hread
  exact h hread.symm

/-- The exponent of the first digit tells the magnitude up to a factor of ten. -/
theorem value_bounds {d : Decimal} (h : d.digits ≠ 0) :
    (10 : ℚ) ^ d.lead ≤ d.value ∧ d.value < 10 ^ (d.lead + 1) := by
  have hten : ∀ e : ℤ, (0 : ℚ) < 10 ^ e := fun e => zpow_pos (by norm_num) e
  have hpos : 0 < (Nat.toDigits 10 d.digits).length := Nat.length_toDigits_pos
  have hupper : d.digits < 10 ^ (Nat.toDigits 10 d.digits).length :=
    (Nat.length_toDigits_le_iff (by norm_num) hpos).1 le_rfl
  have hlower : 10 ^ ((Nat.toDigits 10 d.digits).length - 1) ≤ d.digits := by
    rcases Nat.eq_zero_or_pos ((Nat.toDigits 10 d.digits).length - 1) with hone | hmore
    · rw [hone, pow_zero]
      exact Nat.one_le_iff_ne_zero.2 h
    · by_contra hlt
      have hle := (Nat.length_toDigits_le_iff (by norm_num) hmore).2 (not_le.1 hlt)
      omega
  have hlead : d.lead = (((Nat.toDigits 10 d.digits).length - 1 : ℕ) : ℤ) + d.exponent := by
    unfold lead
    omega
  have hlead' : d.lead + 1 = ((Nat.toDigits 10 d.digits).length : ℤ) + d.exponent := by omega
  unfold value
  rw [hlead', hlead, zpow_add₀ (by norm_num), zpow_add₀ (by norm_num), zpow_natCast, zpow_natCast]
  constructor
  · refine mul_le_mul_of_nonneg_right ?_ (hten _).le
    exact_mod_cast hlower
  · refine mul_lt_mul_of_pos_right ?_ (hten _)
    exact_mod_cast hupper

end Decimal

theorem positional_eq {digits : List Char} (hne : digits ≠ []) (hd : IsDigits digits) (lead : ℤ) :
    ∃ whole fraction, positional digits lead = whole ++ '.' :: fraction ∧
      whole ≠ [] ∧ IsDigits whole ∧ fraction ≠ [] ∧ IsDigits fraction ∧
      Decimal.value ⟨readDigits 0 (whole ++ fraction), -fraction.length⟩ =
        placedValue digits lead := by
  unfold positional
  split
  · rename_i hlead
    refine ⟨['0'], List.replicate ((-lead).toNat - 1) '0' ++ digits, rfl, by simp, ?_,
      by simp [hne], (isDigits_zeros _).append hd, ?_⟩
    · exact isDigits_zeros 1
    · have hread : readDigits 0 (['0'] ++ (List.replicate ((-lead).toNat - 1) '0' ++ digits)) =
          readDigits 0 digits := by
        have hzero : readDigits 0 ['0'] = 0 := by decide
        rw [readDigits_append, readDigits_append, hzero, readDigits_zeros, Nat.zero_mul]
      have hexp : -((List.replicate ((-lead).toNat - 1) '0' ++ digits).length : ℤ) =
          lead + 1 - digits.length := by
        rw [List.length_append, List.length_replicate]
        omega
      rw [hread, hexp]
      rfl
  rename_i hlead
  dsimp only
  by_cases hlong : lead.toNat + 1 < digits.length
  · have hdrop : digits.drop (lead.toNat + 1) ≠ [] := by
      rw [Ne, List.drop_eq_nil_iff]
      omega
    have htake : (digits.take (lead.toNat + 1)).length = lead.toNat + 1 := by
      rw [List.length_take]
      omega
    refine ⟨digits.take (lead.toNat + 1), digits.drop (lead.toNat + 1), ?_, ?_, ?_, hdrop, ?_, ?_⟩
    · simp [htake, hdrop]
    · rw [← List.length_pos_iff, htake]
      omega
    · exact fun c hc => hd c (List.mem_of_mem_take hc)
    · exact fun c hc => hd c (List.mem_of_mem_drop hc)
    · have hexp : -((digits.drop (lead.toNat + 1)).length : ℤ) = lead + 1 - digits.length := by
        rw [List.length_drop]
        omega
      rw [List.take_append_drop, hexp]
      rfl
  · -- all digits stand before the point, with zeros behind them
    have hdrop : digits.drop (lead.toNat + 1) = [] := List.drop_eq_nil_iff.2 (by omega)
    have htake : digits.take (lead.toNat + 1) = digits := List.take_of_length_le (by omega)
    refine ⟨digits ++ List.replicate (lead.toNat + 1 - digits.length) '0', ['0'], ?_, by simp [hne],
      hd.append (isDigits_zeros _), by simp, isDigits_zeros 1, ?_⟩
    · simp [hdrop, htake]
    · have hread : readDigits 0 (digits ++ List.replicate (lead.toNat + 1 - digits.length) '0' ++
          ['0']) = readDigits 0 digits * 10 ^ (lead.toNat + 1 - digits.length) * 10 := by
        rw [readDigits_append, readDigits_append, readDigits_zeros]
        exact readDigits_zeros _ 1
      have hexp : lead + 1 - digits.length = ((lead.toNat + 1 - digits.length : ℕ) : ℤ) := by omega
      unfold placedValue Decimal.value
      dsimp only
      rw [hread, hexp, zpow_natCast]
      push_cast
      simp

theorem Decimal.bits_congr {c d : Decimal} (h : c.value = d.value) : c.bits = d.bits :=
  le_antisymm (bits_mono h.le) (bits_mono h.ge)

/-- Positional text is a digit and more digits with a point among them. -/
theorem positional_eq_cons {digits : List Char} (hne : digits ≠ []) (hd : IsDigits digits)
    (lead : ℤ) : ∃ c cs, positional digits lead = c :: cs ∧ c.isDigit = true ∧
      ∀ e ∈ cs, IsTight e := by
  obtain ⟨whole, fraction, heq, hwne, hw, -, hf, -⟩ := positional_eq hne hd lead
  obtain ⟨c, cs, rfl⟩ := List.exists_cons_of_ne_nil hwne
  obtain ⟨hc, hcs⟩ := hw.of_cons
  refine ⟨c, cs ++ '.' :: fraction, heq, hc, fun e he => ?_⟩
  rw [List.mem_append, List.mem_cons] at he
  rcases he with he | rfl | he
  · exact isTight_of_isNumerals hcs.isNumerals e he
  · exact ⟨by decide, by decide⟩
  · exact isTight_of_isNumerals hf.isNumerals e he

theorem isTight_exponentText (width : ℕ) (e : ℤ) : ∀ c ∈ exponentText width e, IsTight c := by
  have hdigits := (isDigits_zeros (width - (Nat.toDigits 10 e.natAbs).length)).append
    (isDigits_toDigits e.natAbs)
  intro c hc
  unfold exponentText at hc
  dsimp only at hc
  rw [List.cons_append, List.cons_append, List.mem_cons, List.mem_cons] at hc
  rcases hc with rfl | rfl | hc
  · exact ⟨by decide, by decide⟩
  · split <;> exact ⟨by decide, by decide⟩
  · exact isTight_of_isDigit (isDigit_of_isDigit (hdigits c hc))

theorem stops_exponentText (width : ℕ) (e : ℤ) : Stops (exponentText width e) := by
  intro c hc
  obtain rfl := Option.some.inj hc
  decide

section Reading

variable {x : Float} {p : Parts} {d : Decimal}

theorem ofDecimal_of_placedValue (hx : parts? x = some p) (hb : d.bits = p.bits) {digits : ℕ}
    {exponent : ℤ} (h : Decimal.value ⟨digits, exponent⟩ = placedValue d.written d.lead) :
    ofDecimal p.negative digits exponent = x := by
  rw [d.placedValue_written] at h
  exact ofDecimal_of_bits hx ((Decimal.bits_congr h).trans hb)

theorem literal?_positional (hx : parts? x = some p) (hb : d.bits = p.bits) (hd : d.digits ≠ 0)
    {rest : List Char} (hr : Stops rest) :
    literal? (signText p.negative ++ (positional d.written d.lead ++ rest)) = some (x, rest) := by
  obtain ⟨whole, fraction, heq, hwne, hw, hfne, hf, hvalue⟩ :=
    positional_eq (d.written_ne_nil hd) d.isDigits_written d.lead
  rw [heq, List.append_assoc, List.cons_append, literal?_signText _ (head?_ne_minus hwne hw.isNumerals),
    plain?_point _ hwne hw.isNumerals hfne hf.isNumerals hr, ofDecimal_of_placedValue hx hb hvalue]

theorem number?_positional (hx : parts? x = some p) (hb : d.bits = p.bits) (hd : d.digits ≠ 0) :
    number? (signText p.negative ++ positional d.written d.lead) = some x := by
  obtain ⟨whole, fraction, heq, hwne, hw, -, hf, hvalue⟩ :=
    positional_eq (d.written_ne_nil hd) d.isDigits_written d.lead
  have hread : unsigned? p.negative (whole ++ '.' :: fraction) = some x := by
    have h := unsigned?_point p.negative hwne hw.isNumerals hf.isNumerals stops_nil
    rw [List.append_nil] at h
    rw [h, exponent?, Option.map_some, zero_sub, ofDecimal_of_placedValue hx hb hvalue]
  obtain ⟨c, cs, hcons, hc, hcs⟩ :=
    positional_eq_cons (d.written_ne_nil hd) d.isDigits_written d.lead
  rw [← heq, hcons] at hread
  rw [hcons, number?_signText _ (isDigit_of_isDigit hc) hcs]
  exact hread

theorem scientific_eq {digits : List Char} (hne : digits ≠ []) (hd : IsDigits digits) (width : ℕ)
    (lead : ℤ) : ∃ c mantissa, scientific width digits lead =
        (c :: mantissa) ++ exponentText width lead ∧ c.isDigit = true ∧
      (∀ e ∈ mantissa ++ exponentText width lead, IsTight e) ∧
      (∀ negative, unsigned? negative ((c :: mantissa) ++ exponentText width lead) =
        some (ofDecimal negative (readDigits 0 digits) (lead + 1 - digits.length))) ∧
      ∀ negative rest, ∃ y, plain? negative ((c :: mantissa) ++ (exponentText width lead ++ rest)) =
        some (y, exponentText width lead ++ rest) := by
  have hstops : ∀ rest, Stops (exponentText width lead ++ rest) := fun rest =>
    stops_exponentText width lead
  have hpoint : ∀ rest, (exponentText width lead ++ rest).head? ≠ some '.' := by
    intro rest heq
    have hchar : 'e' = '.' := Option.some.inj heq
    contradiction
  obtain ⟨c, tail, rfl⟩ := List.exists_cons_of_ne_nil hne
  obtain ⟨hc, htail⟩ := hd.of_cons
  have hone : IsDigits [c] := fun e he => by rwa [List.mem_singleton.1 he]
  have hexp := isTight_exponentText width lead
  cases tail with
  | nil =>
    refine ⟨c, [], rfl, hc, hexp, fun negative => ?_,
      fun negative rest => ⟨ofDecimal negative (readDigits 0 [c]) 0, ?_⟩⟩
    · have h := unsigned?_whole negative (by simp) hone.isNumerals (stops_exponentText width lead)
        (by simpa using hpoint [])
      rw [exponent?_exponentText, Option.map_some] at h
      rw [h, List.length_singleton]
      congr 2
      omega
    · exact plain?_whole negative (by simp) hone.isNumerals (hstops rest) (hpoint rest)
  | cons second tail =>
    refine ⟨c, '.' :: second :: tail, rfl, hc, ?_, fun negative => ?_,
      fun negative rest => ⟨ofDecimal negative (readDigits 0 ([c] ++ second :: tail))
        (-(second :: tail).length), ?_⟩⟩
    · intro e he
      rw [List.cons_append, List.mem_cons, List.mem_append] at he
      rcases he with rfl | he | he
      · exact ⟨by decide, by decide⟩
      · exact isTight_of_isNumerals htail.isNumerals e he
      · exact hexp e he
    · have h := unsigned?_point negative (by simp) hone.isNumerals htail.isNumerals (stops_exponentText width lead)
      rw [exponent?_exponentText, Option.map_some] at h
      rw [List.cons_append, List.cons_append]
      refine h.trans ?_
      congr 2
      simp only [List.length_cons]
      omega
    · exact plain?_point negative (by simp) hone.isNumerals (by simp) htail.isNumerals (hstops rest)

theorem number?_scientific (hx : parts? x = some p) (hb : d.bits = p.bits) (hd : d.digits ≠ 0)
    (width : ℕ) :
    number? (signText p.negative ++ scientific width d.written d.lead) = some x := by
  obtain ⟨c, mantissa, heq, hc, htight, hread, -⟩ :=
    scientific_eq (d.written_ne_nil hd) d.isDigits_written width d.lead
  rw [heq, List.cons_append, number?_signText _ (isDigit_of_isDigit hc) htight]
  exact (hread p.negative).trans (congrArg some (ofDecimal_of_placedValue hx hb rfl))

/-- A text with an exponent is no plain number: reading stops before the exponent. -/
theorem literal?_scientific (negative : Bool) (hd : d.digits ≠ 0) (width : ℕ) (rest : List Char) :
    ∃ y tail, literal? (signText negative ++ (scientific width d.written d.lead ++ rest)) =
      some (y, 'e' :: tail) := by
  obtain ⟨c, mantissa, heq, hc, -, -, hread⟩ :=
    scientific_eq (d.written_ne_nil hd) d.isDigits_written width d.lead
  obtain ⟨y, hy⟩ := hread negative rest
  have hhead : ((c :: mantissa) ++ (exponentText width d.lead ++ rest)).head? ≠ some '-' := by
    intro hminus
    obtain rfl := Option.some.inj hminus
    contradiction
  rw [heq, List.append_assoc, literal?_signText _ hhead, hy]
  exact ⟨y, _, rfl⟩

end Reading

end FormulaGraph.Double
