import FormulaGraph.Proofs.Arithmetic
import FormulaGraph.Proofs.Calendar.Succession
import FormulaGraph.Proofs.Double.Whole

/-! Arithmetic on the texts of dates: days are added and taken away by counting dates, and the
difference of two dates is how many days one is after the other. -/
namespace FormulaGraph

open Double

namespace Value

/-- What a number counts whole days by: an integer that has a double, or a finite double without
its fraction. -/
def IsCount (t : ℤ) : Value → Prop
  | int n => n = t ∧ ∃ x, ofInt? n = some x
  | float x => ∃ r, toRat? x = some r ∧ towardZero r = t
  | _ => False

def opposite : Value → Value
  | int n => int (-n)
  | float x => float (-x)
  | v => v

variable {v : Value} {t : ℤ}

theorem IsCount.opposite (h : v.IsCount t) : v.opposite.IsCount (-t) := by
  cases v with
  | int n =>
    obtain ⟨rfl, x, hx⟩ := h
    unfold ofInt? at hx
    split at hx
    · contradiction
    · rename_i hfinite
      refine ⟨rfl, _, if_neg ?_⟩
      rwa [Int.natAbs_neg]
  | float x =>
    obtain ⟨r, hr, rfl⟩ := h
    exact ⟨-r, toRat?_neg hr, towardZero_neg r⟩
  | _ => exact h.elim

/-- A count is read as a double that shifts by it, or by so many days that neither leads to a day. -/
theorem IsCount.operand? (h : v.IsCount t) : ∃ x m, v.operand? = .ok (some (.number (.real x))) ∧
    truncate? x = some m ∧ (m = t ∨ 2 ^ 53 ≤ m.natAbs ∧ 2 ^ 53 ≤ t.natAbs) := by
  cases v with
  | int n =>
    obtain ⟨rfl, x, hx⟩ := h
    have hread : (int n).operand? = .ok (some (.number (.real x))) := by
      unfold Value.operand? Quantity.toFloat Quantity.toFloat?
      dsimp only
      rw [hx]
      rfl
    by_cases hn : n.natAbs < 2 ^ 53
    · obtain ⟨y, hy, hr⟩ := exists_ofInt?_of_lt hn
      obtain rfl : x = y := Option.some.inj (hx.symm.trans hy)
      exact ⟨x, n, hread, by rw [truncate?_of_toRat? hr, towardZero_intCast], .inl rfl⟩
    · obtain ⟨p, hp⟩ := isFinite_iff.1 (isFinite_of_ofInt? hx)
      have hr := toRat?_of_parts? hp
      have hlarge := le_abs_of_ofInt? hx hr (not_lt.1 hn)
      exact ⟨x, _, hread, truncate?_of_toRat? hr,
        .inr ⟨le_abs_towardZero (by exact_mod_cast hlarge), not_lt.1 hn⟩⟩
  | float x =>
    obtain ⟨r, hr, rfl⟩ := h
    refine ⟨x, _, ?_, truncate?_of_toRat? hr, .inl rfl⟩
    obtain ⟨p, hp, -⟩ := parts?_of_toRat? hr
    unfold Value.operand?
    dsimp only
    rw [not_isNaN_of_isFinite (isFinite_iff.2 ⟨p, hp⟩)]
    rfl
  | _ => exact h.elim

theorem IsCount.isWritable (h : v.IsCount t) : v.isWritable = true := by
  cases v with
  | int n =>
    obtain ⟨rfl, x, hx⟩ := h
    exact isWritableInt_of_ofInt? hx
  | float x => rfl
  | _ => exact h.elim

end Value

namespace Day

/-- No day is as far away from another as an integer without an exact double. -/
theorem shift?_eq_none (d : Day) {t : ℤ} (h : 2 ^ 53 ≤ t.natAbs) : d.shift? t = none := by
  have hlast := d.le_last
  rw [shift?, ofNumber?, dif_neg (by omega)]

/-- The value of the day that is `t` days away: none if there is no such day, or for no days. -/
def shifted (d : Day) (t : ℤ) : Value :=
  match if t = 0 then none else d.shift? t with
  | some e => .text e.text
  | none => .missing

theorem shifted_eq_missing (d : Day) {t : ℤ} (h : 2 ^ 53 ≤ t.natAbs) : d.shifted t = .missing := by
  rw [shifted, d.shift?_eq_none h, ite_self]

theorem isMissing_shifted_iff {d : Day} {t : ℤ} :
    (d.shifted t).isMissing = false ↔ t ≠ 0 ∧ ∃ e, d.shift? t = some e := by
  unfold shifted
  by_cases ht : t = 0
  · simp [ht, Value.isMissing]
  · rw [if_neg ht]
    cases d.shift? t with
    | none => simp [Value.isMissing]
    | some e => simp [ht, Value.isMissing]

theorem shifted_of_shift? {d e : Day} {t : ℤ} (ht : t ≠ 0) (h : d.shift? t = some e) :
    d.shifted t = .text e.text := by
  rw [shifted, if_neg ht, h]

variable {d e : Day} {v : Value} {t : ℤ}

theorem operand?_text (h : ¬ d.IsEarly) : (Value.text d.text).operand? = .ok (some (.day d)) := by
  obtain ⟨r, hr, -, hread⟩ := (Operand.IsResult.day d).toValue_eq
  obtain rfl : .text d.text = r := Except.ok.inj hr
  have hneither : ¬ ((Operand.day d).IsEarly ∨ (Operand.day d).IsNaN) := not_or.2 ⟨h, id⟩
  rw [hread, if_neg hneither]

/-- A day is shifted by the days that a number counts, forward or back. -/
theorem computeValue_shift (hd : ¬ d.IsEarly) (hv : v.IsCount t) :
    computeValue (.text d.text) (some .add) v = .ok (d.shifted t) ∧
      computeValue (.text d.text) (some .sub) v = .ok (d.shifted (-t)) := by
  obtain ⟨x, m, hread, hm, hmt⟩ := hv.operand?
  have hshift : ∀ op k, (k = m ∧ op = .add ∨ k = -m ∧ op = .sub) →
      computeValue (.text d.text) (some op) v = .ok (d.shifted k) := by
    intro op k hk
    have happly : Operand.apply (some (.day d)) (some op) (some (.number (.real x))) =
        .ok ((if k = 0 then none else d.shift? k).map .day) := by
      unfold Operand.apply Operand.shift Quantity.truncate?
      dsimp only
      rw [hm]
      rcases hk with ⟨rfl, rfl⟩ | ⟨rfl, rfl⟩
      · rfl
      · simp only [Int.neg_eq_zero]
        rfl
    have hwritable : ((Value.text d.text).isWritable && v.isWritable) = true := hv.isWritable
    rw [computeValue_eq (operand?_text hd) hread happly, shifted, hwritable]
    cases if k = 0 then none else d.shift? k <;> rfl
  rw [hshift .add m (.inl ⟨rfl, rfl⟩), hshift .sub (-m) (.inr ⟨rfl, rfl⟩)]
  rcases hmt with rfl | ⟨hm, ht⟩
  · exact ⟨rfl, rfl⟩
  · rw [d.shifted_eq_missing hm, d.shifted_eq_missing ht,
      d.shifted_eq_missing (t := -m) (by rwa [Int.natAbs_neg]),
      d.shifted_eq_missing (t := -t) (by rwa [Int.natAbs_neg])]
    exact ⟨rfl, rfl⟩

theorem computeValue_since (hd : ¬ d.IsEarly) (he : ¬ e.IsEarly) :
    ∃ x, computeValue (.text d.text) (some .sub) (.text e.text) = .ok (.float x) ∧
      toRat? x = some (d.since e : ℚ) := by
  have hlast := d.le_last
  have hlast' := e.le_last
  obtain ⟨x, hx, hr⟩ := exists_ofInt?_of_lt (n := d.since e) (by unfold since; omega)
  have happly : Operand.apply (some (.day d)) (some .sub) (some (.day e)) =
      .ok (some (.number (.real x))) := by
    unfold Operand.apply
    dsimp only
    rw [hx]
    rfl
  exact ⟨x, computeValue_eq (operand?_text hd) (operand?_text he) happly, hr⟩

end Day

namespace Date

/-- A date whose text is read as a day: one of the years 1000 to 9999. -/
def Modern (p : Date) : Prop := p.Valid ∧ 1000 ≤ p.year

theorem Modern.exists_day {p : Date} (h : p.Modern) :
    ∃ d : Day, d.calendarDate = p ∧ ¬ d.IsEarly ∧ p.text = d.text := by
  obtain ⟨d, rfl⟩ := h.1.exists_day
  have hd : ¬ d.IsEarly := not_lt.2 h.2
  exact ⟨d, rfl, hd, (Day.text_eq hd).symm⟩

/-- A date plus a number is the date so many days away, and a date minus a date the number of days
between them, so that each undoes the other. There is no date for no days, nor outside of the years
1 to 9999; and the text of one before the year 1000 is not read as a date. -/
theorem arithmetic_exact {p q : Date} (hp : p.Modern) (hq : q.Modern) {n : Value} {t : ℤ}
    (hn : n.IsCount t) :
    (∃ r, computeValue (.text p.text) (some .add) n = .ok r ∧
      (r.isMissing = false ↔ t ≠ 0 ∧ ∃ s : Date, s.Valid ∧ p.IsAfter t s) ∧
      ∀ s : Date, r.isMissing = false → s.Valid → p.IsAfter t s → 1000 ≤ s.year →
        r = .text s.text ∧ computeValue r (some .sub) n = .ok (.text p.text) ∧
        ∃ x, computeValue r (some .sub) (.text p.text) = .ok (.float x) ∧
          toRat? x = some (t : ℚ)) ∧
    computeValue (.text p.text) (some .sub) n =
      computeValue (.text p.text) (some .add) n.opposite ∧
    ∃ (k : ℤ) (x y : Float), q.IsAfter k p ∧
      computeValue (.text p.text) (some .sub) (.text q.text) = .ok (.float x) ∧
      toRat? x = some (k : ℚ) ∧
      computeValue (.text q.text) (some .sub) (.text p.text) = .ok (.float y) ∧
      toRat? y = some (-k : ℚ) ∧
      (p.text ≠ q.text → computeValue (.text q.text) (some .add) (.float x) = .ok (.text p.text)) := by
  obtain ⟨d, rfl, hd, hptext⟩ := hp.exists_day
  obtain ⟨e, rfl, he, hqtext⟩ := hq.exists_day
  rw [hptext, hqtext]
  obtain ⟨hadd, hsub⟩ := Day.computeValue_shift hd hn
  obtain ⟨x, hx, hxr⟩ := Day.computeValue_since hd he
  obtain ⟨y, hy, hyr⟩ := Day.computeValue_since he hd
  have hshift : e.calendarDate.IsAfter (d.since e) d.calendarDate := by
    rw [Day.isAfter_calendarDate_iff, Day.since]
    omega
  refine ⟨⟨_, hadd, ?_, ?_⟩, ?_, d.since e, x, y, hshift, hx, hxr, hy, ?_, ?_⟩
  · rw [Day.isMissing_shifted_iff]
    refine and_congr_right fun _ => ⟨fun ⟨f, hf⟩ => ?_, fun ⟨s, hs, hafter⟩ => ?_⟩
    · exact ⟨f.calendarDate, f.valid_calendarDate, Day.shift?_eq_some_iff.1 hf⟩
    · obtain ⟨f, rfl⟩ := hs.exists_day
      exact ⟨f, Day.shift?_eq_some_iff.2 hafter⟩
  · intro s hr hs hafter hyear
    obtain ⟨f, rfl, hf, hftext⟩ := Modern.exists_day ⟨hs, hyear⟩
    obtain ⟨ht, -⟩ := Day.isMissing_shifted_iff.1 hr
    have hnumber := (d.isAfter_calendarDate_iff f).1 hafter
    have hback : f.shift? (-t) = some d := by
      rw [Day.shift?_eq_some_iff, Day.isAfter_calendarDate_iff]
      omega
    rw [Day.shifted_of_shift? ht (Day.shift?_eq_some_iff.2 hafter)]
    refine ⟨by rw [hftext], ?_, ?_⟩
    · rw [(Day.computeValue_shift hf hn).2, Day.shifted_of_shift? (neg_ne_zero.2 ht) hback]
    · obtain ⟨z, hz, hzr⟩ := Day.computeValue_since hf hd
      have hsince : f.since d = t := by rw [Day.since]; omega
      exact ⟨z, hz, hsince ▸ hzr⟩
  · rw [hsub, (Day.computeValue_shift hd hn.opposite).1]
  · rw [hyr, Day.since, Day.since]
    push_cast
    rw [neg_sub]
  · intro hne
    have hcount : (Value.float x).IsCount (d.since e) := ⟨_, hxr, towardZero_intCast _⟩
    have hzero : d.since e ≠ 0 := by
      intro hzero
      rw [Day.since] at hzero
      have hsame : d.calendarDate = e.calendarDate :=
        hp.1.1.eq_of_number_eq hq.1.1 (by rw [d.number_calendarDate, e.number_calendarDate]; omega)
      exact hne (by rw [← hptext, ← hqtext, hsame])
    rw [(Day.computeValue_shift he hcount).1,
      Day.shifted_of_shift? hzero (Day.shift?_eq_some_iff.2 hshift)]

/-- Two and a half days after 28 February 2016 it is the first of March. -/
theorem arithmetic_exact_of_leapYear :
    let p : Date := ⟨2016, 2, 28⟩
    let q : Date := ⟨1999, 12, 31⟩
    p.Modern ∧ q.Modern ∧ (Value.float 2.5).IsCount 2 ∧
      computeValue (.text p.text) (some .add) (.float 2.5) = .ok (.text "2016-03-01") ∧
      computeValue (.text "2016-03-01") (some .sub) (.float 2.5) = .ok (.text p.text) := by
  intro p q
  have hp : p.Modern := ⟨⟨⟨by decide, by decide, by decide, by decide, by decide⟩, by decide⟩,
    by decide⟩
  have hq : q.Modern := ⟨⟨⟨by decide, by decide, by decide, by decide, by decide⟩, by decide⟩,
    by decide⟩
  have hn : (Value.float 2.5).IsCount 2 := ⟨5 / 2, by decide +kernel, by decide +kernel⟩
  let s : Date := ⟨2016, 3, 1⟩
  have hs : s.Valid := ⟨⟨by decide, by decide, by decide, by decide, by decide⟩, by decide⟩
  have hafter : p.IsAfter 2 s := by decide +kernel
  have htext : s.text = "2016-03-01" := by decide +kernel
  obtain ⟨⟨r, hr, hvalue, hback⟩, -⟩ := arithmetic_exact hp hq hn
  obtain ⟨rfl, hundo, -⟩ :=
    hback s (hvalue.2 ⟨by decide, s, hs, hafter⟩) hs hafter (by decide)
  rw [htext] at hr hundo
  exact ⟨hp, hq, hn, hr, hundo⟩

end Date
end FormulaGraph
