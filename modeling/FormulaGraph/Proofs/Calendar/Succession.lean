import Mathlib.Algebra.BigOperators.Group.List.Basic
import FormulaGraph.Proofs.Calendar.Text

/-! The calendar by succession. Every date has a next one, and the number of a day counts the
dates, so that the days from one date to another are the difference of their numbers. -/
namespace FormulaGraph
namespace Day

def monthLength (year month : ℕ) : ℕ := (monthLengths year).getD (month - 1) 0

theorem monthLength_succ (year : ℕ) {i : ℕ} (h : i < (monthLengths year).length) :
    monthLength year (i + 1) = (monthLengths year)[i] :=
  List.getD_eq_getElem _ _ h

theorem one_le_monthLength (year : ℕ) {month : ℕ} (h : 1 ≤ month) (hlast : month ≤ 12) :
    1 ≤ monthLength year month := by
  obtain ⟨i, rfl⟩ := Nat.exists_eq_add_of_le' h
  rw [monthLength_succ year hlast]
  exact (mem_monthLengths (List.getElem_mem hlast)).1

theorem dateNumber_nextMonth (year : ℕ) {month : ℕ} (h : 1 ≤ month) (hlast : month < 12) :
    dateNumber year (month + 1) 1 = dateNumber year month (monthLength year month) + 1 := by
  obtain ⟨i, rfl⟩ := Nat.exists_eq_add_of_le' h
  have hi : i < (monthLengths year).length := hlast.le
  rw [dateNumber, dateNumber, monthLength_succ year hi, Nat.add_sub_cancel, Nat.add_sub_cancel,
    List.sum_take_succ _ _ hi]
  omega

theorem dateNumber_nextYear {year : ℕ} (h : 1 ≤ year) :
    dateNumber (year + 1) 1 1 = dateNumber year 12 (monthLength year 12) + 1 := by
  have hlast : 11 < (monthLengths year).length := Nat.lt_succ_self 11
  have hall : ((monthLengths year).take 12).sum = yearLength year := sum_monthLengths year
  rw [List.sum_take_succ _ _ hlast] at hall
  rw [dateNumber, dateNumber, daysBeforeYear_succ h, ← hall, monthLength_succ year hlast]
  simp only [Nat.sub_self, Nat.reduceSub, List.take_zero, List.sum_nil]
  omega

end Day

structure Date where
  year : ℕ
  month : ℕ
  day : ℕ
deriving DecidableEq

namespace Date

open Day

/-- A date of the Gregorian calendar, which goes on without end. -/
structure Regular (p : Date) : Prop where
  one_le_year : 1 ≤ p.year
  one_le_month : 1 ≤ p.month
  month_le : p.month ≤ 12
  one_le_day : 1 ≤ p.day
  day_le : p.day ≤ monthLength p.year p.month

/-- A date of the years 1 to 9999. -/
def Valid (p : Date) : Prop := p.Regular ∧ p.year ≤ 9999

/-- The next date: a day later in the month, else the first of the next month, and after December
the first of January. -/
def next (p : Date) : Date :=
  if p.day < monthLength p.year p.month then { p with day := p.day + 1 }
  else if p.month < 12 then ⟨p.year, p.month + 1, 1⟩
  else ⟨p.year + 1, 1, 1⟩

/-- The date `q` is `t` days after `p`; for a negative `t`, it is `-t` days before. -/
def IsAfter (p : Date) (t : ℤ) (q : Date) : Prop := next^[t.toNat] p = next^[(-t).toNat] q

instance (p : Date) (t : ℤ) (q : Date) : Decidable (p.IsAfter t q) :=
  inferInstanceAs (Decidable (_ = _))

def number (p : Date) : ℕ := dateNumber p.year p.month p.day

variable {p q : Date}

theorem Regular.next (h : p.Regular) : p.next.Regular := by
  unfold Date.next
  split
  · rename_i hlt
    exact ⟨h.one_le_year, h.one_le_month, h.month_le, Nat.le_add_left 1 _, hlt⟩
  · split
    · rename_i hmonth
      exact ⟨h.one_le_year, Nat.le_add_left 1 _, hmonth, le_rfl,
        one_le_monthLength _ (Nat.le_add_left 1 _) hmonth⟩
    · exact ⟨Nat.le_add_left 1 _, le_rfl, Nat.le_add_left 1 11, le_rfl,
        one_le_monthLength _ le_rfl (Nat.le_add_left 1 11)⟩

theorem Regular.number_next (h : p.Regular) : p.next.number = p.number + 1 := by
  unfold Date.next number
  split
  · rfl
  · rename_i hend
    have hday : p.day = monthLength p.year p.month := le_antisymm h.day_le (not_lt.1 hend)
    split
    · rename_i hmonth
      rw [hday]
      exact dateNumber_nextMonth p.year h.one_le_month hmonth
    · rename_i hmonth
      rw [hday, le_antisymm h.month_le (not_lt.1 hmonth)]
      exact dateNumber_nextYear h.one_le_year

theorem Regular.iterate_next (h : p.Regular) (n : ℕ) :
    (Date.next^[n] p).Regular ∧ (Date.next^[n] p).number = p.number + n := by
  induction n with
  | zero => exact ⟨h, rfl⟩
  | succ n ih =>
    rw [Function.iterate_succ_apply']
    exact ⟨ih.1.next, by rw [ih.1.number_next, ih.2, Nat.add_assoc]⟩

end Date

namespace Day

/-- The year of a day is the only one that it lies in. -/
theorem yearOf_eq {n year : ℕ} (hbefore : daysBeforeYear year < n)
    (hafter : n ≤ daysBeforeYear (year + 1)) : yearOf n = year := by
  obtain ⟨hone, hlow, hhigh⟩ := yearOf_spec (show 1 ≤ n by omega)
  refine le_antisymm (not_lt.1 fun hlt => ?_) (not_lt.1 fun hlt => ?_)
  · have hmono := daysBeforeYear_mono (Nat.le_add_left 1 year) hlt
    omega
  · have hmono := daysBeforeYear_mono (Nat.le_add_left 1 (yearOf n)) hlt
    omega

/-- A day of a month is found behind the months before. -/
theorem splitMonths_eq (month : ℕ) {i day : ℕ} {lengths : List ℕ} (hi : i < lengths.length)
    (hday : 1 ≤ day) (hle : day ≤ lengths[i]) :
    splitMonths month ((lengths.take i).sum + day) lengths = (month + i, day) := by
  induction lengths generalizing month i with
  | nil => contradiction
  | cons length rest ih =>
    unfold splitMonths
    cases i with
    | zero =>
      rw [List.getElem_cons_zero] at hle
      rw [List.take_zero, List.sum_nil, Nat.zero_add, if_pos hle]
      rfl
    | succ i =>
      rw [List.getElem_cons_succ] at hle
      rw [List.take_succ_cons, List.sum_cons, if_neg (by omega), Nat.add_assoc,
        Nat.add_sub_cancel_left, ih (month + 1) (Nat.lt_of_succ_lt_succ hi) hle]
      congr 1
      omega

end Day

namespace Date

open Day Text

variable {p q : Date}

theorem Regular.split_number (h : p.Regular) : yearOf p.number = p.year ∧
    splitMonths 1 (p.number - daysBeforeYear p.year) (monthLengths p.year) = (p.month, p.day) := by
  obtain ⟨year, month, day⟩ := p
  obtain ⟨hyear, hmonth, hlast, hday, hle⟩ := h
  dsimp only at *
  obtain ⟨i, rfl⟩ := Nat.exists_eq_add_of_le' hmonth
  change yearOf (dateNumber year (i + 1) day) = year ∧
    splitMonths 1 (dateNumber year (i + 1) day - daysBeforeYear year) (monthLengths year) = _
  have hi : i < (monthLengths year).length := hlast
  rw [monthLength_succ year hi] at hle
  have hsum : ((monthLengths year).take (i + 1)).sum ≤ yearLength year := by
    rw [← sum_monthLengths, ← List.sum_take_add_sum_drop (monthLengths year) (i + 1)]
    exact Nat.le_add_right _ _
  rw [List.sum_take_succ _ _ hi] at hsum
  have hsplit := splitMonths_eq 1 hi hday hle
  rw [Nat.add_comm 1 i] at hsplit
  rw [dateNumber, Nat.add_sub_cancel]
  constructor
  · refine yearOf_eq (by omega) ?_
    rw [daysBeforeYear_succ hyear]
    omega
  · rw [Nat.add_assoc, Nat.add_sub_cancel_left, hsplit]

theorem Regular.eq_of_number_eq (hp : p.Regular) (hq : q.Regular) (h : p.number = q.number) :
    p = q := by
  obtain ⟨hyear, hmonth⟩ := hp.split_number
  obtain ⟨hyear', hmonth'⟩ := hq.split_number
  rw [h] at hyear hmonth
  obtain ⟨year, month, day⟩ := p
  obtain ⟨year', month', day'⟩ := q
  dsimp only at *
  obtain rfl : year = year' := hyear.symm.trans hyear'
  obtain ⟨rfl, rfl⟩ := Prod.mk.inj (hmonth.symm.trans hmonth')
  rfl

/-- The days from a date to another are the difference of their numbers. -/
theorem Regular.isAfter_iff (hp : p.Regular) (hq : q.Regular) {t : ℤ} :
    p.IsAfter t q ↔ (q.number : ℤ) = p.number + t := by
  obtain ⟨hreg, hnum⟩ := hp.iterate_next t.toNat
  obtain ⟨hreg', hnum'⟩ := hq.iterate_next (-t).toNat
  constructor
  · intro h
    have heq := congrArg number h
    rw [hnum, hnum'] at heq
    omega
  · intro h
    exact hreg.eq_of_number_eq hreg' (by rw [hnum, hnum']; omega)

def text (p : Date) : String :=
  String.ofList (padded 4 p.year ++ '-' :: padded 2 p.month ++ '-' :: padded 2 p.day)

end Date

namespace Day

def calendarDate (d : Day) : Date := ⟨d.date.1, d.date.2.1, d.date.2.2⟩

variable (d e : Day)

theorem valid_calendarDate : d.calendarDate.Valid :=
  have h := d.date_spec.1
  ⟨⟨h.one_le_year, h.one_le_month, h.month_le, h.one_le_day, h.day_le⟩, h.year_le⟩

theorem number_calendarDate : d.calendarDate.number = d.number := d.date_spec.2

theorem isAfter_calendarDate_iff {t : ℤ} :
    d.calendarDate.IsAfter t e.calendarDate ↔ (e.number : ℤ) = d.number + t := by
  rw [d.valid_calendarDate.1.isAfter_iff e.valid_calendarDate.1, number_calendarDate,
    number_calendarDate]

theorem ofNumber?_eq_some_iff {n : ℤ} {d : Day} : ofNumber? n = some d ↔ (d.number : ℤ) = n := by
  constructor
  · intro h
    obtain ⟨hin, hd⟩ := Option.dite_none_right_eq_some.1 h
    obtain rfl := Option.some.inj hd
    exact Int.toNat_of_nonneg (by omega)
  · rintro rfl
    exact ofNumber?_number d

/-- A shift leads to the day whose date is as many days away. -/
theorem shift?_eq_some_iff {t : ℤ} {d e : Day} :
    d.shift? t = some e ↔ d.calendarDate.IsAfter t e.calendarDate := by
  rw [shift?, ofNumber?_eq_some_iff, isAfter_calendarDate_iff]

/-- The text of a day as a result is that of its date, from the year 1000 on. -/
theorem text_eq {d : Day} (h : ¬ d.IsEarly) : d.text = d.calendarDate.text := by
  have hlength : 4 ≤ (Nat.toDigits 10 d.date.1).length := by
    have hmore := mt (Nat.length_toDigits_le_iff (b := 10) (by decide) (by decide)).1
      (show ¬ d.date.1 < 10 ^ 3 from h)
    omega
  have hpad : padded 1 d.date.1 = padded 4 d.date.1 := by
    rw [padded, padded, Nat.sub_eq_zero_of_le hlength, Nat.sub_eq_zero_of_le (by omega)]
  rw [← String.toList_inj, d.text_toList, hpad, Date.text, String.toList_ofList]
  rfl

end Day

/-- Every date of the years 1 to 9999 is that of a day. -/
theorem Date.Valid.exists_day {p : Date} (h : p.Valid) : ∃ d : Day, d.calendarDate = p := by
  have hone := h.1.one_le_day
  have hlast : p.number ≤ 3652059 := by
    have hend := (Day.yearOf_spec (n := p.number) (by unfold number Day.dateNumber; omega)).2.2
    rw [h.1.split_number.1] at hend
    exact hend.trans (Day.daysBeforeYear_mono (z := 10000) (Nat.le_add_left 1 _)
      (Nat.succ_le_succ h.2))
  refine ⟨⟨p.number, by unfold number Day.dateNumber; omega, hlast⟩, ?_⟩
  exact (Day.valid_calendarDate _).1.eq_of_number_eq h.1 (Day.number_calendarDate _)

end FormulaGraph
