import FormulaGraph.Proofs.Double.Digits

/-! The texts of plain numbers, which both readers of numbers give the same value, and the
characters that a number has in any notation. -/
namespace FormulaGraph.Double

open Text

/-- The text of a plain number: an optional minus, digits and an optional fraction. -/
inductive IsPlainText : List Char → Prop where
  | whole (negative : Bool) {digits : List Char} (ne : digits ≠ []) (h : IsNumerals digits) :
    IsPlainText (signText negative ++ digits)
  | point (negative : Bool) {whole fraction : List Char} (wne : whole ≠ [])
    (hw : IsNumerals whole) (fne : fraction ≠ []) (hf : IsNumerals fraction) :
    IsPlainText (signText negative ++ (whole ++ '.' :: fraction))

variable {cs rest : List Char} {x : Float}

theorem exists_cons_of_signText (negative : Bool) {digits : List Char} (hne : digits ≠ [])
    (h : IsNumerals digits) (tail : List Char) :
    ∃ c tail', signText negative ++ (digits ++ tail) = c :: tail' ∧ isBlank c = false := by
  obtain ⟨c, cs, rfl⟩ := List.exists_cons_of_ne_nil hne
  cases negative with
  | true => exact ⟨'-', c :: (cs ++ tail), rfl, by decide⟩
  | false => exact ⟨c, cs ++ tail, rfl, isBlank_of_isDigit h.of_cons.1⟩

theorem IsPlainText.exists_cons (h : IsPlainText cs) :
    ∃ c tail, cs = c :: tail ∧ isBlank c = false := by
  cases h with
  | @whole negative digits hne hdigits =>
    have hcons := exists_cons_of_signText negative hne hdigits []
    rwa [List.append_nil] at hcons
  | @point negative whole fraction wne hw fne hf =>
    exact exists_cons_of_signText negative wne hw ('.' :: fraction)

theorem number?_whole (negative : Bool) {digits : List Char} (hne : digits ≠ [])
    (h : IsNumerals digits) : number? (signText negative ++ digits) =
      some (ofDecimal negative (readDigits 0 digits) 0) := by
  have hread := unsigned?_whole negative hne h stops_nil (by simp)
  rw [List.append_nil, exponent?, Option.map_some] at hread
  obtain ⟨c, cs, rfl⟩ := List.exists_cons_of_ne_nil hne
  rw [number?_signText negative h.of_cons.1 (isTight_of_isNumerals h.of_cons.2), hread]

theorem number?_point (negative : Bool) {whole fraction : List Char} (hne : whole ≠ [])
    (hw : IsNumerals whole) (hf : IsNumerals fraction) :
    number? (signText negative ++ (whole ++ '.' :: fraction)) =
      some (ofDecimal negative (readDigits 0 (whole ++ fraction)) (-fraction.length)) := by
  have hread := unsigned?_point negative hne hw hf stops_nil
  rw [List.append_nil, exponent?, Option.map_some, Int.zero_sub] at hread
  obtain ⟨c, cs, rfl⟩ := List.exists_cons_of_ne_nil hne
  have htight : ∀ d ∈ cs ++ '.' :: fraction, IsTight d := by
    intro d hd
    rcases List.mem_append.1 hd with hd | hd
    · exact isTight_of_isNumerals hw.of_cons.2 d hd
    · rcases List.mem_cons.1 hd with rfl | hd
      · exact ⟨by decide, by decide⟩
      · exact isTight_of_isNumerals hf d hd
  rw [List.cons_append, number?_signText negative hw.of_cons.1 htight, ← List.cons_append, hread]

/-- A plain number is read as far as it goes, and as the number that its text is as a whole. -/
theorem IsPlainText.literal? (h : IsPlainText cs) : ∃ x, number? cs = some x ∧
    ∀ rest, Stops rest → rest.head? ≠ some '.' → Double.literal? (cs ++ rest) = some (x, rest) := by
  cases h with
  | whole negative hne hdigits =>
    refine ⟨_, number?_whole negative hne hdigits, fun rest hr hdot => ?_⟩
    rw [List.append_assoc, literal?_signText _ (head?_ne_minus hne hdigits),
      plain?_whole _ hne hdigits hr hdot]
  | point negative wne hw fne hf =>
    refine ⟨_, number?_point negative wne hw hf, fun rest hr hdot => ?_⟩
    rw [List.append_assoc, List.append_assoc,
      literal?_signText _ (head?_ne_minus wne hw), List.cons_append,
      plain?_point _ wne hw fne hf hr]

theorem isNumerals_takeWhile (cs : List Char) : IsNumerals (cs.takeWhile isDigit) :=
  fun _ hc => List.mem_takeWhile_imp hc

theorem plain?_sound {negative : Bool} (h : plain? negative cs = some (x, rest)) :
    ∃ digits, cs = digits ++ rest ∧ IsPlainText (signText negative ++ digits) ∧
      number? (signText negative ++ digits) = some x := by
  have hw := isNumerals_takeWhile cs
  have hcs := List.takeWhile_append_dropWhile (p := isDigit) (l := cs)
  unfold plain? at h
  dsimp only at h
  split at h
  · contradiction
  rename_i hne
  rw [List.isEmpty_iff] at hne
  split at h
  · rename_i tail htail
    have hf := isNumerals_takeWhile tail
    have hsplit := List.takeWhile_append_dropWhile (p := isDigit) (l := tail)
    rw [htail] at hcs
    split at h
    · obtain ⟨rfl, rfl⟩ := Prod.mk.inj (Option.some.inj h)
      exact ⟨_, hcs.symm, .whole negative hne hw, number?_whole negative hne hw⟩
    · rename_i hfne
      rw [List.isEmpty_iff] at hfne
      obtain ⟨rfl, rfl⟩ := Prod.mk.inj (Option.some.inj h)
      refine ⟨cs.takeWhile isDigit ++ '.' :: tail.takeWhile isDigit, ?_,
        .point negative hne hw hfne hf, ?_⟩
      · rw [List.append_assoc, List.cons_append, hsplit, hcs]
      · rw [number?_point negative hne hw hf, readDigits_append]
  · obtain ⟨rfl, rfl⟩ := Prod.mk.inj (Option.some.inj h)
    exact ⟨_, hcs.symm, .whole negative hne hw, number?_whole negative hne hw⟩

theorem literal?_sound (h : literal? cs = some (x, rest)) :
    ∃ n, cs = n ++ rest ∧ IsPlainText n ∧ number? n = some x := by
  unfold literal? at h
  split at h
  · obtain ⟨digits, rfl, hplain, hnumber⟩ := plain?_sound h
    exact ⟨'-' :: digits, rfl, hplain, hnumber⟩
  · obtain ⟨digits, rfl, hplain, hnumber⟩ := plain?_sound h
    exact ⟨digits, rfl, hplain, hnumber⟩

/-- The characters of a number in any notation. -/
def IsNumberChar (c : Char) : Prop :=
  isDigit c = true ∨ c.isAlpha = true ∨ c ∈ ['_', '.', '+', '-']

theorem IsNumberChar.isBlank_eq {c : Char} (h : IsNumberChar c) : isBlank c = false := by
  rcases h with h | h | h
  · exact isBlank_of_isDigit h
  · exact isBlank_of_isAlpha h
  · simp only [List.mem_cons, List.not_mem_nil, or_false] at h
    rcases h with rfl | rfl | rfl | rfl
    all_goals decide

theorem mem_of_joinDigits? {afterDigit : Bool} {js : List Char}
    (h : joinDigits? afterDigit cs = some js) : ∀ c ∈ cs, c = '_' ∨ c ∈ js := by
  induction afterDigit, cs using joinDigits?.induct generalizing js with
  | case1 afterDigit => simp
  | case2 afterDigit d rest hd ih =>
    rw [joinDigits?, if_pos hd] at h
    obtain ⟨ks, hks, rfl⟩ := Option.map_eq_some_iff.1 h
    intro c hc
    rcases List.mem_cons.1 hc with rfl | hc
    · exact .inl rfl
    · rcases List.mem_cons.1 hc with rfl | hc
      · exact .inr List.mem_cons_self
      · exact (ih hks c hc).imp_right (List.mem_cons_of_mem _)
  | case3 afterDigit d rest hd =>
    rw [joinDigits?, if_neg hd] at h
    contradiction
  | case4 afterDigit rest hnot =>
    rw [joinDigits?.eq_3 _ _ _ hnot, if_pos rfl] at h
    contradiction
  | case5 afterDigit c rest hnot hc ih =>
    rw [joinDigits?.eq_3 _ _ _ hnot, if_neg hc] at h
    obtain ⟨ks, hks, rfl⟩ := Option.map_eq_some_iff.1 h
    intro d hd
    rcases List.mem_cons.1 hd with rfl | hd
    · exact .inr List.mem_cons_self
    · exact (ih hks d hd).imp_right (List.mem_cons_of_mem _)

theorem mem_splitSign {c : Char} (h : c ∈ cs) :
    c ∈ ['_', '.', '+', '-'] ∨ c ∈ (splitSign cs).2 := by
  unfold splitSign
  split
  · rcases List.mem_cons.1 h with rfl | h
    exacts [.inl (by decide), .inr h]
  · rcases List.mem_cons.1 h with rfl | h
    exacts [.inl (by decide), .inr h]
  · exact .inr h

theorem isNumberChar_of_exponent? {e : Int} (h : exponent? cs = some e) :
    ∀ c ∈ cs, IsNumberChar c := by
  cases cs with
  | nil => simp
  | cons c rest =>
    rw [exponent?] at h
    split at h
    · rename_i he
      dsimp only at h
      split at h
      · contradiction
      · rename_i hdigits
        rw [Bool.or_eq_true, not_or, Bool.not_eq_true', Bool.not_eq_false,
          List.all_eq_true] at hdigits
        intro d hd
        rcases List.mem_cons.1 hd with rfl | hd
        · simp only [Bool.or_eq_true, decide_eq_true_eq] at he
          rcases he with rfl | rfl <;> exact .inr (.inl (by decide))
        · rcases mem_splitSign hd with hsign | hd
          · exact .inr (.inr hsign)
          · exact .inl (hdigits.2 d hd)
    · contradiction

theorem isNumberChar_of_dropWhile (h : ∀ c ∈ cs.dropWhile isDigit, IsNumberChar c) :
    ∀ c ∈ cs, IsNumberChar c := by
  intro c hc
  rw [← List.takeWhile_append_dropWhile (p := isDigit) (l := cs)] at hc
  rcases List.mem_append.1 hc with hc | hc
  · exact .inl (isNumerals_takeWhile cs c hc)
  · exact h c hc

theorem isNumberChar_of_unsigned? {negative : Bool} (h : unsigned? negative cs = some x) :
    ∀ c ∈ cs, IsNumberChar c := by
  refine isNumberChar_of_dropWhile ?_
  unfold unsigned? at h
  dsimp only at h
  split at h
  · rename_i tail htail
    split at h
    · contradiction
    obtain ⟨e, he, -⟩ := Option.map_eq_some_iff.1 h
    rw [htail]
    intro c hc
    rcases List.mem_cons.1 hc with rfl | hc
    · exact .inr (.inr (by decide))
    · exact isNumberChar_of_dropWhile (isNumberChar_of_exponent? he) c hc
  · split at h
    · contradiction
    obtain ⟨e, he, -⟩ := Option.map_eq_some_iff.1 h
    exact isNumberChar_of_exponent? he

theorem isAlpha_of_toLower {c : Char} (h : c.toLower.isAlpha = true) : c.isAlpha = true := by
  unfold Char.toLower at h
  split at h
  · rename_i hupper
    have hin : c.isUpper = true := decide_eq_true hupper
    exact (Bool.or_eq_true _ _).mpr (.inl hin)
  · exact h

theorem isNumberChar_of_map_toLower {name : String} (h : cs.map Char.toLower = name.toList)
    (hname : name.toList.all Char.isAlpha = true) : ∀ c ∈ cs, IsNumberChar c := by
  intro c hc
  refine .inr (.inl (isAlpha_of_toLower (List.all_eq_true.1 hname _ ?_)))
  rw [← h]
  exact List.mem_map_of_mem hc

/-- What is left of a number when the blanks around it are taken off holds none. -/
theorem isNumberChar_of_number? (h : number? cs = some x) :
    ∀ c ∈ trimBy isNumberBlank cs, IsNumberChar c := by
  unfold number? at h
  obtain ⟨js, hjs, h⟩ := Option.bind_eq_some_iff.1 h
  have hread : ∀ c ∈ (splitSign js).2, IsNumberChar c := by
    dsimp only at h
    split at h
    · rename_i hname
      rw [Bool.or_eq_true, decide_eq_true_eq, decide_eq_true_eq] at hname
      rcases hname with hname | hname
      · exact isNumberChar_of_map_toLower hname (by decide)
      · exact isNumberChar_of_map_toLower hname (by decide)
    · split at h
      · rename_i hname
        exact isNumberChar_of_map_toLower hname (by decide)
      · exact isNumberChar_of_unsigned? h
  intro c hc
  rcases mem_of_joinDigits? hjs c hc with rfl | hc
  · exact .inr (.inr (by decide))
  · rcases mem_splitSign hc with hsign | hc
    · exact .inr (.inr hsign)
    · exact hread c hc

end FormulaGraph.Double
