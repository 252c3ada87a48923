import Mathlib.Algebra.Ring.Nat
import FormulaGraph.Double.Layout
import FormulaGraph.Double.Reader
import FormulaGraph.Proofs.Trim

/-! Runs of digits, and what the two readers of numbers make of texts that consist of a sign, such
runs, a point and an exponent. -/
namespace FormulaGraph

namespace Text

def IsDigits (cs : List Char) : Prop := ∀ c ∈ cs, c.isDigit = true

theorem toNat_of_isDigit {c : Char} (h : c.isDigit = true) : 48 ≤ c.toNat ∧ c.toNat ≤ 57 :=
  Char.isDigit_iff_toNat.1 h

theorem digitValue?_of_isDigit {c : Char} (h : c.isDigit = true) :
    digitValue? c = some (c.toNat - 48) := by
  have hdigit := toNat_of_isDigit h
  have hin : (decide (48 ≤ c.toNat) && decide (c.toNat < 48 + 10)) = true := by
    rw [Bool.and_eq_true, decide_eq_true_eq, decide_eq_true_eq]
    omega
  unfold digitValue? digitZeros
  rw [List.findSome?_cons, if_pos hin]

theorem isDigit_of_isDigit {c : Char} (h : c.isDigit = true) : isDigit c = true := by
  rw [isDigit, digitValue?_of_isDigit h, Option.isSome_some]

/-- The digits of a script lie apart from the blanks and from the ASCII capitals. -/
theorem digitZeros_apart : ∀ z ∈ digitZeros, ∀ r ∈ (65, 90) :: blankRanges,
    z + 10 ≤ r.1 ∨ r.2 < z := by
  decide

theorem exists_digitZero {c : Char} (h : isDigit c = true) :
    ∃ z ∈ digitZeros, z ≤ c.toNat ∧ c.toNat < z + 10 := by
  obtain ⟨n, hn⟩ := Option.isSome_iff_exists.1 h
  obtain ⟨z, hz, hread⟩ := List.exists_of_findSome?_eq_some hn
  split at hread
  · rename_i hin
    exact ⟨z, hz, by simpa using hin⟩
  · contradiction

theorem isBlank_of_isDigit {c : Char} (h : isDigit c = true) : isBlank c = false := by
  obtain ⟨z, hz, hle, hlt⟩ := exists_digitZero h
  rw [isBlank, Ranges.contains, List.any_eq_false]
  intro r hr
  have happart := digitZeros_apart z hz r (List.mem_cons_of_mem _ hr)
  simp only [Bool.and_eq_true, decide_eq_true_eq]
  omega

theorem toLower_of_isDigit {c : Char} (h : isDigit c = true) : c.toLower = c := by
  obtain ⟨z, hz, hle, hlt⟩ := exists_digitZero h
  have happart := digitZeros_apart z hz (65, 90) List.mem_cons_self
  unfold Char.toLower
  rw [dif_neg]
  rintro ⟨hge, hle'⟩
  have hfrom : 65 ≤ c.toNat := hge
  have hto : c.toNat ≤ 90 := hle'
  omega

def IsNumerals (cs : List Char) : Prop := ∀ c ∈ cs, isDigit c = true

theorem IsDigits.isNumerals {cs : List Char} (h : IsDigits cs) : IsNumerals cs :=
  fun c hc => isDigit_of_isDigit (h c hc)

theorem IsNumerals.of_cons {c : Char} {cs : List Char} (h : IsNumerals (c :: cs)) :
    isDigit c = true ∧ IsNumerals cs :=
  ⟨h c (by simp), fun d hd => h d (by simp [hd])⟩

theorem IsDigits.append {xs ys : List Char} (hx : IsDigits xs) (hy : IsDigits ys) :
    IsDigits (xs ++ ys) := fun c hc => (List.mem_append.1 hc).elim (hx c) (hy c)

theorem IsDigits.of_cons {c : Char} {cs : List Char} (h : IsDigits (c :: cs)) :
    c.isDigit = true ∧ IsDigits cs :=
  ⟨h c (by simp), fun d hd => h d (by simp [hd])⟩

theorem isDigits_zeros (n : Nat) : IsDigits (List.replicate n '0') := by
  intro c hc
  rw [List.eq_of_mem_replicate hc]
  rfl

theorem isDigits_toDigits (n : Nat) : IsDigits (Nat.toDigits 10 n) := fun _ hc =>
  Nat.isDigit_of_mem_toDigits (by decide) (by decide) hc

theorem readDigits_cons {c : Char} (hc : c.isDigit = true) (acc : Nat) (cs : List Char) :
    readDigits acc (c :: cs) = readDigits (10 * acc + (c.toNat - 48)) cs := by
  rw [readDigits, List.foldl_cons, digitValue?_of_isDigit hc]
  rfl

theorem readDigits_eq {cs : List Char} (h : IsDigits cs) (acc : Nat) :
    readDigits acc cs = Nat.ofDigitChars 10 cs acc := by
  induction cs generalizing acc with
  | nil => rfl
  | cons c cs ih =>
    obtain ⟨hc, hcs⟩ := h.of_cons
    rw [readDigits_cons hc, ih hcs, Nat.ofDigitChars_cons]
    rfl

@[simp] theorem readDigits_toDigits (n : Nat) : readDigits 0 (Nat.toDigits 10 n) = n := by
  rw [readDigits_eq (isDigits_toDigits n), Nat.ofDigitChars_ten_toDigits]

theorem readDigits_append (acc : Nat) (xs ys : List Char) :
    readDigits acc (xs ++ ys) = readDigits (readDigits acc xs) ys := List.foldl_append

theorem readDigits_zeros (acc n : Nat) :
    readDigits acc (List.replicate n '0') = acc * 10 ^ n := by
  rw [readDigits_eq (isDigits_zeros n), Nat.ofDigitChars_replicate_zero, Nat.mul_comm]

/-- A text that a run of digits in front of it cannot go on in. -/
def Stops (rest : List Char) : Prop := ∀ c ∈ rest.head?, isDigit c = false

theorem stops_nil : Stops [] := by simp [Stops]

theorem stops_point (cs : List Char) : Stops ('.' :: cs) := by
  intro c hc
  obtain rfl := Option.some.inj hc
  decide

theorem takeWhile_digits {digits rest : List Char} (h : IsNumerals digits) (hr : Stops rest) :
    (digits ++ rest).takeWhile isDigit = digits := by
  rw [List.takeWhile_append_of_pos h]
  cases rest with
  | nil => simp
  | cons c rest => rw [List.takeWhile_cons_of_neg (by simp [hr c rfl]), List.append_nil]

theorem dropWhile_digits {digits rest : List Char} (h : IsNumerals digits) (hr : Stops rest) :
    (digits ++ rest).dropWhile isDigit = rest := by
  rw [List.dropWhile_append_of_pos h]
  cases rest with
  | nil => rfl
  | cons c rest => rw [List.dropWhile_cons_of_neg (by simp [hr c rfl])]

end Text

namespace Double

open Text

def signText (negative : Bool) : List Char := if negative then ['-'] else []

theorem splitSign_signText (negative : Bool) {c : Char} (hc : isDigit c = true) (cs : List Char) :
    splitSign (signText negative ++ c :: cs) = (negative, c :: cs) := by
  cases negative with
  | true => rfl
  | false =>
    have hminus : c ≠ '-' := by rintro rfl; contradiction
    have hplus : c ≠ '+' := by rintro rfl; contradiction
    simp [signText, splitSign, hminus, hplus]

variable {whole fraction rest : List Char}

theorem plain?_whole (negative : Bool) (hne : whole ≠ []) (hw : IsNumerals whole) (hr : Stops rest)
    (hp : rest.head? ≠ some '.') :
    plain? negative (whole ++ rest) = some (ofDecimal negative (readDigits 0 whole) 0, rest) := by
  unfold plain?
  simp only [takeWhile_digits hw hr, dropWhile_digits hw hr, List.isEmpty_iff, hne, if_false]
  cases rest with
  | nil => rfl
  | cons c rest =>
    have hc : c ≠ '.' := fun heq => hp (by rw [heq, List.head?_cons])
    split
    · rename_i heq
      exact absurd (List.cons.inj heq).1 hc
    · rfl

theorem plain?_point (negative : Bool) (hne : whole ≠ []) (hw : IsNumerals whole)
    (hfne : fraction ≠ []) (hf : IsNumerals fraction) (hr : Stops rest) :
    plain? negative (whole ++ '.' :: (fraction ++ rest)) =
      some (ofDecimal negative (readDigits 0 (whole ++ fraction)) (-fraction.length), rest) := by
  have hstop : Stops ('.' :: (fraction ++ rest)) := stops_point _
  unfold plain?
  simp only [takeWhile_digits hw hstop, dropWhile_digits hw hstop, takeWhile_digits hf hr,
    dropWhile_digits hf hr, List.isEmpty_iff, hne, hfne, if_false, readDigits_append]

theorem head?_ne_minus {digits : List Char} (hne : digits ≠ []) (h : IsNumerals digits) :
    (digits ++ rest).head? ≠ some '-' := by
  obtain ⟨c, cs, rfl⟩ := List.exists_cons_of_ne_nil hne
  intro heq
  obtain rfl := Option.some.inj heq
  exact absurd h.of_cons.1 (by decide)

theorem literal?_signText (negative : Bool) {cs : List Char} (h : cs.head? ≠ some '-') :
    literal? (signText negative ++ cs) = plain? negative cs := by
  cases negative with
  | true => rfl
  | false =>
    cases cs with
    | nil => rfl
    | cons c cs =>
      have hc : c ≠ '-' := fun heq => h (by rw [heq, List.head?_cons])
      simp [signText, literal?, hc]

theorem exponent?_digits (negative : Bool) {digits : List Char} (hne : digits ≠ [])
    (h : IsDigits digits) :
    exponent? ('e' :: (if negative then '-' else '+') :: digits) =
      some (if negative then -(readDigits 0 digits : Int) else readDigits 0 digits) := by
  have hall : digits.all isDigit = true :=
    List.all_eq_true.2 fun c hc => isDigit_of_isDigit (h c hc)
  cases negative <;> simp [exponent?, splitSign, hne, hall]

theorem exponent?_exponentText (width : Nat) (e : Int) :
    exponent? (exponentText width e) = some e := by
  have hread : readDigits 0 (List.replicate (width - (Nat.toDigits 10 e.natAbs).length) '0' ++
      Nat.toDigits 10 e.natAbs) = e.natAbs := by
    rw [readDigits_append, readDigits_zeros, Nat.zero_mul, readDigits_toDigits]
  have h := exponent?_digits (decide (e < 0)) (by simp [Nat.toDigits_ne_nil])
    ((isDigits_zeros (width - (Nat.toDigits 10 e.natAbs).length)).append
      (isDigits_toDigits e.natAbs))
  rw [hread] at h
  simp only [decide_eq_true_eq] at h
  unfold exponentText
  dsimp only
  rw [List.cons_append, List.cons_append, h]
  congr 1
  split <;> omega

theorem unsigned?_whole (negative : Bool) (hne : whole ≠ []) (hw : IsNumerals whole)
    (hr : Stops rest) (hp : rest.head? ≠ some '.') : unsigned? negative (whole ++ rest) =
      (exponent? rest).map fun e => ofDecimal negative (readDigits 0 whole) e := by
  unfold unsigned?
  simp only [takeWhile_digits hw hr, dropWhile_digits hw hr]
  cases rest with
  | nil => simp [hne, readDigits]
  | cons c rest =>
    have hc : c ≠ '.' := fun heq => hp (by rw [heq, List.head?_cons])
    simp [hne, hc, readDigits]

theorem unsigned?_point (negative : Bool) (hne : whole ≠ []) (hw : IsNumerals whole)
    (hf : IsNumerals fraction) (hr : Stops rest) :
    unsigned? negative (whole ++ '.' :: (fraction ++ rest)) =
      (exponent? rest).map fun e =>
        ofDecimal negative (readDigits 0 (whole ++ fraction)) (e - fraction.length) := by
  have hstop : Stops ('.' :: (fraction ++ rest)) := stops_point _
  unfold unsigned?
  simp only [takeWhile_digits hw hstop, dropWhile_digits hw hstop, takeWhile_digits hf hr,
    dropWhile_digits hf hr, readDigits_append]
  simp [hne]

/-- A character that neither separates digits nor surrounds a number. -/
def IsTight (c : Char) : Prop := c ≠ '_' ∧ isBlank c = false

theorem joinDigits?_of_tight {cs : List Char} (h : ∀ c ∈ cs, IsTight c) (afterDigit : Bool) :
    joinDigits? afterDigit cs = some cs := by
  induction cs generalizing afterDigit with
  | nil => rfl
  | cons c cs ih =>
    have hc : c ≠ '_' := (h c (by simp)).1
    have hcs := ih (fun d hd => h d (by simp [hd])) (isDigit c)
    unfold joinDigits?
    split
    · rename_i heq
      contradiction
    · rename_i heq
      exact absurd (List.cons.inj heq).1 hc
    · rename_i heq
      obtain ⟨rfl, rfl⟩ := List.cons.inj heq
      rw [if_neg hc, hcs, Option.map_some]

theorem isTight_of_isDigit {c : Char} (h : isDigit c = true) : IsTight c :=
  ⟨by rintro rfl; contradiction, isBlank_of_isDigit h⟩

theorem isTight_of_isNumerals {cs : List Char} (h : IsNumerals cs) : ∀ c ∈ cs, IsTight c :=
  fun c hc => isTight_of_isDigit (h c hc)

theorem isTight_signText (negative : Bool) {c : Char} (hc : isDigit c = true) {cs : List Char}
    (h : ∀ d ∈ cs, IsTight d) : ∀ d ∈ signText negative ++ c :: cs, IsTight d := by
  intro d hd
  rcases List.mem_append.1 hd with hd | hd
  · cases negative with
    | true =>
      obtain rfl := List.mem_singleton.1 hd
      exact ⟨by decide, by decide⟩
    | false => contradiction
  · rcases List.mem_cons.1 hd with rfl | hd
    · exact isTight_of_isDigit hc
    · exact h d hd

/-- A tight text with a digit behind its sign is no name and is read by its digits. -/
theorem number?_signText (negative : Bool) {c : Char} (hc : isDigit c = true) {cs : List Char}
    (h : ∀ d ∈ cs, IsTight d) :
    number? (signText negative ++ c :: cs) = unsigned? negative (c :: cs) := by
  have htight := isTight_signText negative hc h
  have htrim : trimBy isNumberBlank (signText negative ++ c :: cs) = signText negative ++ c :: cs :=
    trimBy_of_forall fun d hd => by rw [isNumberBlank, (htight d hd).2, Bool.false_and]
  unfold number?
  rw [htrim, joinDigits?_of_tight htight]
  simp only [Option.bind_eq_bind, Option.bind_some, splitSign_signText negative hc, List.map_cons,
    toLower_of_isDigit hc]
  have hname : ∀ (name : String) (d : Char) (ds : List Char), name.toList = d :: ds →
      isDigit d = false → c :: cs.map Char.toLower ≠ name.toList := by
    intro name d ds hcons hd heq
    rw [hcons] at heq
    rw [← (List.cons.inj heq).1, hc] at hd
    contradiction
  rw [if_neg, if_neg]
  · exact hname "nan" 'n' _ rfl (by decide)
  · simp only [Bool.or_eq_true, decide_eq_true_eq, not_or]
    exact ⟨hname "inf" 'i' _ rfl (by decide), hname "infinity" 'i' _ rfl (by decide)⟩

end Double
end FormulaGraph
