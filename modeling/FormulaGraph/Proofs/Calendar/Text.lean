import Mathlib.Data.Nat.Digits.Defs
import FormulaGraph.Proofs.Calendar.Dates
import FormulaGraph.Proofs.Double.Digits

/-! The text of a day is read back exactly if its year has four digits: the text of an earlier day
is neither a date nor a number. -/
namespace FormulaGraph

open Text

theorem isDigits_padded (width n : Nat) : IsDigits (padded width n) :=
  (isDigits_zeros _).append (isDigits_toDigits n)

theorem readDigits_padded (width n : Nat) : readDigits 0 (padded width n) = n := by
  rw [padded, readDigits_append, readDigits_zeros, Nat.zero_mul, readDigits_toDigits]

theorem length_padded_le_iff {width n k : Nat} (hw : width ≤ k) (hk : 0 < k) :
    (padded width n).length ≤ k ↔ n < 10 ^ k := by
  rw [padded, List.length_append, List.length_replicate,
    ← Nat.length_toDigits_le_iff (by decide) hk]
  omega

theorem padded_two : ∀ n < 100, padded 2 n = [(n / 10).digitChar, (n % 10).digitChar] := by
  decide

namespace Day

theorem month?_digitChar :
    ∀ n < 12, month? ((n + 1) / 10).digitChar ((n + 1) % 10).digitChar = some (n + 1) := by
  decide

theorem dayOfMonth?_digitChar :
    ∀ n < 31, dayOfMonth? ((n + 1) / 10).digitChar ((n + 1) % 10).digitChar = some (n + 1) := by
  decide

/-- The days whose year has fewer than four digits. -/
def IsEarly (d : Day) : Prop := d.date.1 < 1000

instance (d : Day) : Decidable d.IsEarly := inferInstanceAs (Decidable (_ < _))

variable (d : Day)

theorem text_toList : d.text.toList =
    padded 1 d.date.1 ++ '-' :: padded 2 d.date.2.1 ++ '-' :: padded 2 d.date.2.2 := by
  rw [text, paddedText, String.toList_ofList]

theorem mem_text {c : Char} (h : c ∈ d.text.toList) : c.isDigit = true ∨ c = '-' := by
  simp only [text_toList, List.mem_append, List.mem_cons] at h
  rcases h with (h | h | h) | h | h
  exacts [.inl (isDigits_padded _ _ _ h), .inr h, .inl (isDigits_padded _ _ _ h), .inr h,
    .inl (isDigits_padded _ _ _ h)]

theorem trimChars_text : trimChars d.text.toList = d.text.toList := by
  refine trimBy_of_forall fun c hc => ?_
  rcases d.mem_text hc with hdigit | rfl
  · exact isBlank_of_isDigit (isDigit_of_isDigit hdigit)
  · decide

theorem text_split : ∃ m m' n n', d.text.toList = padded 1 d.date.1 ++ ['-', m, m', '-', n, n'] ∧
    IsDigits [m, m', n, n'] ∧ month? m m' = some d.date.2.1 ∧
    dayOfMonth? n n' = some d.date.2.2 := by
  have hdate := d.date_spec.1
  have htext := d.text_toList
  obtain ⟨i, hi⟩ := Nat.exists_eq_add_of_le' hdate.one_le_month
  obtain ⟨j, hj⟩ := Nat.exists_eq_add_of_le' hdate.one_le_day
  have hilast := hdate.month_le
  have hjlast := hdate.day_le_last
  rw [hi] at hilast htext ⊢
  rw [hj] at hjlast htext ⊢
  have hdigits := (isDigits_padded 2 (i + 1)).append (isDigits_padded 2 (j + 1))
  rw [padded_two (i + 1) (by omega), padded_two (j + 1) (by omega)] at hdigits htext
  rw [htext, List.append_assoc]
  exact ⟨_, _, _, _, rfl, hdigits, month?_digitChar i hilast, dayOfMonth?_digitChar j hjlast⟩

theorem ofText?_text (h : ¬ d.IsEarly) :
    isDateText d.text.toList = true ∧ ofText? d.text.toList = some d := by
  obtain ⟨m, m', n, n', htext, hdigits, hmonth, hday⟩ := d.text_split
  have hlast := d.date_spec.1.year_le
  have hlength : (padded 1 d.date.1).length = 4 := by
    have hmost := (length_padded_le_iff (show 1 ≤ 4 by decide) (by decide)).2
      (show d.date.1 < 10 ^ 4 by omega)
    have hleast := mt (length_padded_le_iff (show 1 ≤ 3 by decide) (by decide)).1
      (show ¬ d.date.1 < 10 ^ 3 from h)
    omega
  have hdigitsYear := isDigits_padded 1 d.date.1
  have hread := readDigits_padded 1 d.date.1
  generalize padded 1 d.date.1 = ds at htext hlength hdigitsYear hread
  match ds, hlength with
  | [p, q, r, s], _ =>
    have hall : ∀ xs : List Char, IsDigits xs → xs.all isDigit = true := fun xs hxs =>
      List.all_eq_true.2 hxs.isNumerals
    rw [htext]
    constructor
    · exact hall _ (hdigitsYear.append hdigits)
    · have hdate' := d.ofDate?_date
      rw [← hread] at hdate'
      simp only [List.cons_append, List.nil_append, ofText?, hall _ hdigitsYear, hmonth, hday]
      exact hdate'

theorem isDateText_length {cs : List Char} (h : isDateText cs = true) : cs.length = 10 := by
  unfold isDateText at h
  split at h
  · rfl
  · contradiction

theorem isDateText_text (h : d.IsEarly) : isDateText d.text.toList = false := by
  obtain ⟨m, m', n, n', htext, -⟩ := d.text_split
  have hmost := (length_padded_le_iff (show 1 ≤ 3 by decide) (by decide)).2
    (show d.date.1 < 10 ^ 3 from h)
  by_contra hdate
  have hten := isDateText_length (by simpa using hdate)
  rw [htext, List.length_append] at hten
  simp only [List.length_cons, List.length_nil] at hten
  omega

theorem finite?_text : Double.finite? d.text.toList = none := by
  have htight : ∀ c ∈ d.text.toList, Double.IsTight c := by
    intro c hc
    rcases d.mem_text hc with hdigit | rfl
    · exact Double.isTight_of_isDigit (isDigit_of_isDigit hdigit)
    · exact ⟨by decide, by decide⟩
  have hyear := (isDigits_padded 1 d.date.1).isNumerals
  obtain ⟨m, m', n, n', htext, -⟩ := d.text_split
  rw [htext] at htight ⊢
  generalize hds : padded 1 d.date.1 = ds at htight hyear
  cases ds with
  | nil => exact absurd hds (by simp [padded, Nat.toDigits_ne_nil])
  | cons p ds =>
    have hnone : Double.number? (p :: ds ++ ['-', m, m', '-', n, n']) = none := by
      have hread : Double.number? (p :: ds ++ ['-', m, m', '-', n, n']) =
          Double.unsigned? false (p :: ds ++ ['-', m, m', '-', n, n']) :=
        Double.number?_signText false hyear.of_cons.1
          fun x hx => htight x (List.mem_cons_of_mem _ hx)
      rw [hread,
        Double.unsigned?_whole false (by simp) hyear (fun x hx => ?_) (by simp)]
      · rfl
      · obtain rfl := Option.some.inj hx
        decide
    rw [Double.finite?, hnone]
    rfl

end Day

end FormulaGraph
