import Mathlib.Algebra.Order.Group.Nat
import Mathlib.Data.List.GetD
import Mathlib.Data.Nat.ModEq
import FormulaGraph.Calendar

/-! The date of a day: its year, month and day of month lie in the calendar, and they are those of
no other day. -/
namespace FormulaGraph
namespace Day

def yearLength (year : Nat) : Nat := if isLeap year then 366 else 365

theorem sum_monthLengths (year : Nat) : (monthLengths year).sum = yearLength year := by
  unfold monthLengths yearLength
  cases isLeap year <;> rfl

theorem mem_monthLengths {year n : Nat} (h : n ∈ monthLengths year) : 1 ≤ n ∧ n ≤ 31 := by
  simp only [monthLengths, List.mem_cons, List.not_mem_nil, or_false] at h
  split at h <;> omega

theorem daysBeforeYear_eq (year : Nat) : daysBeforeYear year =
    365 * (year - 1) + (year - 1) / 4 - (year - 1) / 100 + (year - 1) / 400 := rfl

theorem daysBeforeYear_succ {year : Nat} (h : 1 ≤ year) :
    daysBeforeYear (year + 1) = daysBeforeYear year + yearLength year := by
  obtain ⟨y, rfl⟩ := Nat.exists_eq_add_of_le' h
  have hleap : isLeap (y + 1) = true ↔ 4 ∣ y + 1 ∧ (¬ 100 ∣ y + 1 ∨ 400 ∣ y + 1) := by
    simp [isLeap, Nat.dvd_iff_mod_eq_zero]
  simp only [daysBeforeYear_eq, yearLength, hleap, Nat.add_sub_cancel, Nat.succ_div]
  have h100 : y / 100 ≤ y := Nat.div_le_self y 100
  split_ifs <;> omega

theorem daysBeforeYear_mono {y z : Nat} (hy : 1 ≤ y) (h : y ≤ z) :
    daysBeforeYear y ≤ daysBeforeYear z := by
  induction z, h using Nat.le_induction with
  | base => exact Nat.le_refl _
  | succ z h ih =>
    rw [daysBeforeYear_succ (by omega)]
    omega

/-- Four hundred years have 146097 days, and no year is a full day away from that mean. -/
theorem daysBeforeYear_bounds (year : Nat) :
    146097 * (year - 1) ≤ 400 * daysBeforeYear year + 699 ∧
      400 * daysBeforeYear year ≤ 146097 * (year - 1) + 396 := by
  rw [daysBeforeYear_eq]
  omega

/-- A day lies in the year that is read off its number. -/
theorem yearOf_spec {n : Nat} (h : 1 ≤ n) : 1 ≤ yearOf n ∧
    daysBeforeYear (yearOf n) < n ∧ n ≤ daysBeforeYear (yearOf n + 1) := by
  unfold yearOf
  dsimp only
  have hbefore := daysBeforeYear_bounds ((n - 1) * 400 / 146097 + 1)
  have hafter := daysBeforeYear_bounds ((n - 1) * 400 / 146097 + 1 + 1 + 1)
  split
  · omega
  · split
    · omega
    · omega

/-- The `n`-th day counted from the start of a month lies behind the months before its own, and
within its own. -/
theorem splitMonths_spec (month : Nat) {n : Nat} {lengths : List Nat} (h : 1 ≤ n)
    (hle : n ≤ lengths.sum) : ∃ i day, splitMonths month n lengths = (month + i, day) ∧
      i < lengths.length ∧ 1 ≤ day ∧ day ≤ lengths.getD i 0 ∧
      (lengths.take i).sum + day = n := by
  induction lengths generalizing month n with
  | nil => simp at hle; omega
  | cons length rest ih =>
    rw [List.sum_cons] at hle
    unfold splitMonths
    split
    · rename_i hin
      exact ⟨0, n, rfl, by simp, h, by simpa using hin, by simp⟩
    · rename_i hout
      obtain ⟨i, day, hsplit, hi, hday, hlength, hsum⟩ :=
        ih (month + 1) (show 1 ≤ n - length by omega) (by omega)
      refine ⟨i + 1, day, by rw [hsplit]; congr 1; omega, by simpa using hi, hday, by simpa, ?_⟩
      rw [List.take_succ_cons, List.sum_cons]
      omega

/-- A year, month and day of month of the calendar. -/
structure IsDate (year month day : Nat) : Prop where
  one_le_year : 1 ≤ year
  year_le : year ≤ 9999
  one_le_month : 1 ≤ month
  month_le : month ≤ 12
  one_le_day : 1 ≤ day
  day_le : day ≤ (monthLengths year).getD (month - 1) 0

def dateNumber (year month day : Nat) : Nat :=
  daysBeforeYear year + ((monthLengths year).take (month - 1)).sum + day

theorem IsDate.day_le_last {year month day : Nat} (h : IsDate year month day) : day ≤ 31 := by
  have hmonth : month - 1 < (monthLengths year).length := by
    have h1 := h.one_le_month
    have h12 := h.month_le
    rw [monthLengths]
    simp only [List.length_cons, List.length_nil]
    omega
  have hmem : (monthLengths year).getD (month - 1) 0 ∈ monthLengths year := by
    rw [List.getD_eq_getElem _ _ hmonth]
    exact List.getElem_mem hmonth
  exact Nat.le_trans h.day_le (mem_monthLengths hmem).2

theorem date_spec (d : Day) : IsDate d.date.1 d.date.2.1 d.date.2.2 ∧
    dateNumber d.date.1 d.date.2.1 d.date.2.2 = d.number := by
  obtain ⟨hyear, hstart, hend⟩ := yearOf_spec d.one_le
  rw [daysBeforeYear_succ hyear, ← sum_monthLengths] at hend
  obtain ⟨i, day, hsplit, hi, hday, hlength, hsum⟩ :=
    splitMonths_spec 1 (show 1 ≤ d.number - daysBeforeYear (yearOf d.number) by omega)
      (show _ ≤ (monthLengths (yearOf d.number)).sum by omega)
  have hlast : yearOf d.number ≤ 9999 := by
    by_contra hlate
    have hmono := daysBeforeYear_mono (by decide) (show 10000 ≤ yearOf d.number by omega)
    have hall : daysBeforeYear 10000 = 3652059 := rfl
    have hd := d.le_last
    omega
  have hdate : d.date = (yearOf d.number, i + 1, day) := by rw [date, hsplit, Nat.add_comm]
  rw [hdate]
  refine ⟨⟨hyear, hlast, Nat.le_add_left 1 i, hi, hday, hlength⟩, ?_⟩
  dsimp only
  rw [dateNumber, Nat.add_sub_cancel]
  omega

theorem IsDate.ofDate?_eq {year month day : Nat} (h : IsDate year month day) :
    ofDate? year month day = ofNumber? (dateNumber year month day) := by
  have hin : (decide (1 ≤ year) && decide (year ≤ 9999) && decide (1 ≤ month) &&
      decide (month ≤ 12) && decide (1 ≤ day)) = true := by
    simp only [Bool.and_eq_true, decide_eq_true_eq]
    exact ⟨⟨⟨⟨h.one_le_year, h.year_le⟩, h.one_le_month⟩, h.month_le⟩, h.one_le_day⟩
  have hfold : ((monthLengths year).take (month - 1)).foldl (· + ·) (daysBeforeYear year + day) =
      dateNumber year month day := by
    rw [List.foldl_eq_apply_foldr, ← List.sum_eq_foldr, dateNumber]
    omega
  unfold ofDate?
  dsimp only
  rw [if_pos hin, if_pos h.day_le, hfold]

theorem ofNumber?_number (d : Day) : ofNumber? d.number = some d := by
  have h1 := d.one_le
  have h2 := d.le_last
  rw [ofNumber?, dif_pos (by omega)]
  rfl

theorem ofDate?_date (d : Day) : ofDate? d.date.1 d.date.2.1 d.date.2.2 = some d := by
  obtain ⟨hdate, hnumber⟩ := d.date_spec
  rw [hdate.ofDate?_eq, hnumber, ofNumber?_number]

end Day
end FormulaGraph
