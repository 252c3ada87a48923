import FormulaGraph.Proofs.Double.Plain
import FormulaGraph.Rule.Normal

/-! Numbers of rules: what their text looks like, and what the two number syntaxes of rules make of
it. -/
namespace FormulaGraph

open Text Double

theorem toList_toString_int (n : ℤ) :
    (toString n).toList = signText (decide (n < 0)) ++ Nat.toDigits 10 n.natAbs := by
  cases n with
  | ofNat m =>
    have hnat : (toString (Int.ofNat m)).toList = Nat.toDigits 10 m := Nat.toList_repr
    have hpos : decide (Int.ofNat m < 0) = false := decide_eq_false (Int.natCast_nonneg m).not_gt
    rw [hnat, hpos]
    rfl
  | negSucc m =>
    have hneg : decide (Int.negSucc m < 0) = true := decide_eq_true (Int.negSucc_lt_zero m)
    have hminus : (toString (Int.negSucc m)).toList = ("-" ++ (m + 1).repr).toList := rfl
    rw [hminus, String.toList_append, Nat.toList_repr, hneg]
    rfl

namespace Step

/-- The four shapes of the text of a number. -/
inductive Written (x : Float) : List Char → Prop
  | integer {p : Parts} {n : ℤ} (hx : parts? x = some p) (hn : toInt? x = some n) :
      Written x (signText (decide (n < 0)) ++ Nat.toDigits 10 n.natAbs)
  | positional {p : Parts} (hx : parts? x = some p) (hv : p.value ≠ 0)
      (hlead : -4 ≤ p.shortest.lead) :
      Written x (signText p.negative ++ positional p.shortest.written p.shortest.lead)
  | scientific {p : Parts} (hx : parts? x = some p) (hv : p.value ≠ 0)
      (hlead : p.shortest.lead < -4) :
      Written x (signText p.negative ++ scientific 2 p.shortest.written p.shortest.lead)
  | named {name : List Char} (hx : parts? x = none)
      (hname : name ∈ ["nan".toList, "-inf".toList, "inf".toList]) : Written x name

theorem magnitude_plain (d : Decimal) : Layout.plain.magnitude d =
    if -4 ≤ d.lead ∧ d.lead < 16 then positional d.written d.lead
    else scientific 2 d.written d.lead := by
  have h : Layout.plain.magnitude d = if decide (-4 ≤ d.lead) && decide (d.lead < 16) then
      positional d.written d.lead else scientific 2 d.written d.lead := rfl
  rw [h]
  simp only [Bool.and_eq_true, decide_eq_true_eq]

theorem written_numberText (x : Float) : Written x (numberText x).toList := by
  unfold numberText
  cases hn : toInt? x with
  | some n =>
    obtain ⟨p, hx, -⟩ := parts?_of_toRat? (toInt?_eq_some_iff.1 hn)
    dsimp only
    rw [toList_toString_int]
    exact .integer hx hn
  | none =>
    dsimp only
    unfold Value.floatText Layout.render
    cases hx : parts? x with
    | none =>
      dsimp only
      split
      · exact .named hx (by decide)
      · split
        · exact .named hx (by decide)
        · exact .named hx (by decide)
    | some p =>
      have hp := canonical_of_parts? hx
      have hnone : ∀ m : ℤ, toInt? x ≠ some m := by simp [hn]
      have hvalue : p.value ≠ 0 := by
        intro hzero
        refine hnone 0 (toInt?_eq_some_iff.2 ?_)
        rw [toRat?_of_parts? hx, Parts.signedValue, hzero]
        simp
      have hs : p.significand ≠ 0 := fun h => hvalue (Parts.value_eq_zero_iff.2 h)
      have htext : String.toList (String.ofList (if p.negative then
          '-' :: Layout.plain.magnitude p.shortest else Layout.plain.magnitude p.shortest)) =
          signText p.negative ++ Layout.plain.magnitude p.shortest := by
        rw [String.toList_ofList]
        cases p.negative <;> rfl
      have hlarge : p.shortest.lead < 16 := by
        by_contra hle
        have hexp := Parts.exponent_nonneg_of_lead hp hvalue (not_lt.1 hle)
        obtain ⟨m, hm⟩ := toInt?_of_exponent_nonneg hx hexp
        exact hnone m hm
      simp only [hs, if_false]
      rw [htext, magnitude_plain]
      split
      · rename_i hlead
        exact .positional hx hvalue hlead.1
      · exact .scientific hx hvalue (by omega)

variable {x : Float}

theorem isPlain_of_toInt? {n : ℤ} (hn : toInt? x = some n) : IsPlain x := by
  refine ⟨n, toInt?_eq_some_iff.1 hn, ?_⟩
  rcases eq_or_ne n 0 with rfl | hne
  · exact Or.inl Int.cast_zero
  · have hone : (1 : ℚ) ≤ |(n : ℚ)| := by exact_mod_cast Int.one_le_abs hne
    exact Or.inr (by linarith)

theorem isPlain_iff_lead {p : Parts} (hx : parts? x = some p) (hvalue : p.value ≠ 0) :
    IsPlain x ↔ -4 ≤ p.shortest.lead := by
  rw [Parts.neg_four_le_lead_iff (canonical_of_parts? hx) hvalue, ← p.abs_signedValue]
  constructor
  · rintro ⟨r, hr, hr'⟩
    rw [toRat?_of_parts? hx, Option.some.injEq] at hr
    subst hr
    refine hr'.resolve_left fun hzero => hvalue ?_
    rw [← p.abs_signedValue, hzero, abs_zero]
  · intro h
    exact ⟨_, toRat?_of_parts? hx, Or.inr h⟩

theorem not_isPlain_of_parts? (hx : parts? x = none) : ¬ IsPlain x := by
  rintro ⟨r, hr, -⟩
  obtain ⟨p, hp, -⟩ := parts?_of_toRat? hr
  rw [hx] at hp
  contradiction

/-- The digits of an integer give the double it is equal to, up to the sign of zero. -/
theorem alike_ofDecimal {p : Parts} {n : ℤ} (hx : parts? x = some p) (hn : toInt? x = some n) :
    Alike x (ofDecimal (decide (n < 0)) n.natAbs 0) := by
  obtain ⟨hvalue, hsign⟩ := value_of_toInt? hx hn
  rcases eq_or_ne n 0 with rfl | hne
  · obtain ⟨s, rfl⟩ := zero_of_toRat? (toInt?_eq_some_iff.1 hn)
    have hzero : ofDecimal (decide ((0 : ℤ) < 0)) (0 : ℤ).natAbs 0 = zero .positive := by decide
    rw [hzero]
    exact alike_zero s .positive
  · rw [hsign hne, ofDecimal_of_bits hx (Decimal.bits_of_value (canonical_of_parts? hx) hvalue)]
    exact .refl x

variable {text : List Char}

theorem Written.literal? (hw : Written x text) (h : IsPlain x) (rest : List Char)
    (hr : Stops rest) (hdot : rest.head? ≠ some '.') :
    ∃ y, Alike x y ∧ Double.literal? (text ++ rest) = some (y, rest) := by
  cases hw with
  | @integer p n hx hn =>
    have hne : Nat.toDigits 10 n.natAbs ≠ [] := Nat.toDigits_ne_nil
    have hdigits := isDigits_toDigits n.natAbs
    refine ⟨_, alike_ofDecimal hx hn, ?_⟩
    rw [List.append_assoc, literal?_signText _ (head?_ne_minus hne hdigits.isNumerals),
      plain?_whole _ hne hdigits.isNumerals hr hdot, readDigits_toDigits]
  | @positional p hx hv hlead =>
    have hp := canonical_of_parts? hx
    refine ⟨x, .refl x, ?_⟩
    rw [List.append_assoc]
    exact literal?_positional hx (bits_shortest hp) (Parts.digits_shortest_ne_zero hp hv) hr
  | @scientific p hx hv hlead =>
    have hle := (isPlain_iff_lead hx hv).1 h
    omega
  | named hx hname => exact absurd h (not_isPlain_of_parts? hx)

/-- Any other number breaks off before an exponent or is not read at all. -/
theorem Written.isPlain_of_literal? (hw : Written x text) {y : Float} {rest tail : List Char}
    (h : Double.literal? (text ++ rest) = some (y, tail)) (ht : tail.head? ≠ some 'e') :
    IsPlain x := by
  cases hw with
  | integer hx hn => exact isPlain_of_toInt? hn
  | positional hx hv hlead => exact (isPlain_iff_lead hx hv).2 hlead
  | @scientific p hx hv hlead =>
    have hd := Parts.digits_shortest_ne_zero (canonical_of_parts? hx) hv
    obtain ⟨z, tail', hread⟩ := literal?_scientific p.negative hd 2 rest
    rw [List.append_assoc, hread] at h
    obtain ⟨-, rfl⟩ := Prod.mk.inj (Option.some.inj h)
    exact absurd rfl ht
  | named hx hname =>
    simp only [List.mem_cons, List.not_mem_nil, or_false] at hname
    rcases hname with rfl | rfl | rfl <;> contradiction

theorem Written.number? (hw : Written x text) (h : x.isFinite = true) :
    ∃ y, Alike x y ∧ Double.number? text = some y := by
  cases hw with
  | @integer p n hx hn =>
    have hdigits := isDigits_toDigits n.natAbs
    have hread : unsigned? (decide (n < 0)) (Nat.toDigits 10 n.natAbs) =
        some (ofDecimal (decide (n < 0)) n.natAbs 0) := by
      have h := unsigned?_whole (decide (n < 0)) Nat.toDigits_ne_nil hdigits.isNumerals stops_nil (by simp)
      rwa [List.append_nil, readDigits_toDigits, exponent?, Option.map_some] at h
    obtain ⟨c, cs, hcs⟩ := List.exists_cons_of_ne_nil (@Nat.toDigits_ne_nil n.natAbs 10)
    rw [hcs] at hread hdigits ⊢
    refine ⟨_, alike_ofDecimal hx hn, ?_⟩
    rw [number?_signText _ hdigits.isNumerals.of_cons.1 (isTight_of_isNumerals hdigits.of_cons.2.isNumerals), hread]
  | positional hx hv hlead =>
    have hp := canonical_of_parts? hx
    exact ⟨x, .refl x,
      number?_positional hx (bits_shortest hp) (Parts.digits_shortest_ne_zero hp hv)⟩
  | scientific hx hv hlead =>
    have hp := canonical_of_parts? hx
    exact ⟨x, .refl x,
      number?_scientific hx (bits_shortest hp) (Parts.digits_shortest_ne_zero hp hv) 2⟩
  | named hx hname =>
    obtain ⟨p, hp⟩ := isFinite_iff.1 h
    rw [hx] at hp
    contradiction

/-- A finite number reads back where any notation is read, up to the sign of a zero. -/
theorem Written.finite? (hw : Written x text) (h : x.isFinite = true) :
    ∃ y, Alike x y ∧ Double.finite? text = some y := by
  obtain ⟨y, hy, hnumber⟩ := hw.number? h
  have hsame : x.isFinite = y.isFinite := Alike.congr (by decide) hy
  refine ⟨y, hy, ?_⟩
  rw [Double.finite?, hnumber, Option.filter_some, if_pos (hsame ▸ h)]

/-- The text of a number that is not finite is a name; any other one is a sign, a digit and tight
characters. -/
theorem Written.eq_cons (hw : Written x text) :
    text ∈ ["nan".toList, "-inf".toList, "inf".toList] ∨ ∃ negative c cs,
      text = signText negative ++ c :: cs ∧ c.isDigit = true ∧ ∀ e ∈ cs, IsTight e := by
  cases hw with
  | @integer p n hx hn =>
    have hdigits := isDigits_toDigits n.natAbs
    obtain ⟨c, cs, hcs⟩ := List.exists_cons_of_ne_nil (@Nat.toDigits_ne_nil n.natAbs 10)
    rw [hcs] at hdigits ⊢
    exact Or.inr ⟨_, c, cs, rfl, hdigits.of_cons.1, isTight_of_isNumerals hdigits.of_cons.2.isNumerals⟩
  | @positional p hx hv hlead =>
    have hd := Parts.digits_shortest_ne_zero (canonical_of_parts? hx) hv
    obtain ⟨c, cs, heq, hc, hcs⟩ := positional_eq_cons (p.shortest.written_ne_nil hd)
      p.shortest.isDigits_written p.shortest.lead
    exact Or.inr ⟨_, c, cs, by rw [heq], hc, hcs⟩
  | @scientific p hx hv hlead =>
    have hd := Parts.digits_shortest_ne_zero (canonical_of_parts? hx) hv
    obtain ⟨c, mantissa, heq, hc, htight, -⟩ := scientific_eq (p.shortest.written_ne_nil hd)
      p.shortest.isDigits_written 2 p.shortest.lead
    exact Or.inr ⟨_, c, _, by rw [heq, List.cons_append], hc, htight⟩
  | named hx hname => exact Or.inl hname

theorem Written.isTight (hw : Written x text) : ∀ c ∈ text, IsTight c := by
  rcases hw.eq_cons with hname | ⟨negative, c, cs, rfl, hc, hcs⟩
  · have hall : ∀ name ∈ ["nan".toList, "-inf".toList, "inf".toList],
        (name.all fun c => c != '_' && !isBlank c) = true := by decide
    intro c hc
    have htight := List.all_eq_true.1 (hall text hname) c hc
    simpa [IsTight] using htight
  · exact isTight_signText negative (isDigit_of_isDigit hc) hcs

theorem Written.exists_cons (hw : Written x text) : ∃ c cs, text = c :: cs ∧ c ≠ '[' := by
  rcases hw.eq_cons with hname | ⟨negative, c, cs, rfl, hc, -⟩
  · simp only [List.mem_cons, List.not_mem_nil, or_false] at hname
    rcases hname with rfl | rfl | rfl
    · exact ⟨_, _, rfl, by decide⟩
    · exact ⟨_, _, rfl, by decide⟩
    · exact ⟨_, _, rfl, by decide⟩
  · cases negative with
    | true => exact ⟨'-', c :: cs, rfl, by decide⟩
    | false => exact ⟨c, cs, rfl, by rintro rfl; contradiction⟩

end Step
end FormulaGraph
