import Mathlib.Data.List.TakeWhile
import FormulaGraph.Text.Blank

/-! Trimming leaves alone what has no blanks at its ends, and leaves nothing else. Letters are no
blanks. -/
namespace FormulaGraph.Text

variable {p : Char → Bool} {cs : List Char}

/-- A text with no character of the given kind at its ends. -/
def Tidy (p : Char → Bool) (cs : List Char) : Prop :=
  (∀ c ∈ cs.head?, p c = false) ∧ ∀ c ∈ cs.getLast?, p c = false

theorem dropWhile_of_head? (h : ∀ c ∈ cs.head?, p c = false) : cs.dropWhile p = cs := by
  cases cs with
  | nil => rfl
  | cons c cs => rw [List.dropWhile_cons_of_neg (by simp [h c rfl])]

theorem trimBy_of_tidy (h : Tidy p cs) : trimBy p cs = cs := by
  have hlast : ∀ c ∈ cs.reverse.head?, p c = false := by
    rw [List.head?_reverse]
    exact h.2
  unfold trimBy
  rw [dropWhile_of_head? h.1, dropWhile_of_head? hlast, List.reverse_reverse]

/-- What is trimmed starts like the text without the characters in front. -/
theorem trimBy_prefix_dropWhile (p : Char → Bool) (cs : List Char) :
    trimBy p cs <+: cs.dropWhile p := by
  have hsuffix := List.dropWhile_suffix p (l := (cs.dropWhile p).reverse)
  have h := List.reverse_prefix.2 hsuffix
  rwa [List.reverse_reverse] at h

theorem tidy_trimBy (p : Char → Bool) (cs : List Char) : Tidy p (trimBy p cs) := by
  have hend : ∀ xs : List Char, ∀ c ∈ (xs.dropWhile p).head?, p c = false := by
    intro xs c hc
    have h := List.head?_dropWhile_not p xs
    rw [Option.mem_def.1 hc] at h
    simpa using h
  constructor
  · obtain ⟨rest, hrest⟩ := trimBy_prefix_dropWhile p cs
    intro c hc
    refine hend cs c ?_
    rw [← hrest, List.head?_append, Option.mem_def.1 hc]
    rfl
  · unfold trimBy
    rw [List.getLast?_reverse]
    exact hend _

theorem mem_trimBy {c : Char} (h : c ∈ cs) (hc : p c = false) : c ∈ trimBy p cs := by
  have hend : ∀ xs : List Char, c ∈ xs → c ∈ xs.dropWhile p := by
    intro xs hmem
    rw [← List.takeWhile_append_dropWhile (p := p) (l := xs)] at hmem
    rcases List.mem_append.1 hmem with hfront | hback
    · rw [List.mem_takeWhile_imp hfront] at hc
      contradiction
    · exact hback
  unfold trimBy
  rw [List.mem_reverse]
  exact hend _ (List.mem_reverse.2 (hend cs h))

theorem mem_of_mem_trimBy {c : Char} (h : c ∈ trimBy p cs) : c ∈ cs := by
  unfold trimBy at h
  rw [List.mem_reverse] at h
  have h' := (List.dropWhile_suffix p).subset h
  rw [List.mem_reverse] at h'
  exact (List.dropWhile_suffix p).subset h'

theorem trimBy_of_forall (h : ∀ c ∈ cs, p c = false) : trimBy p cs = cs :=
  trimBy_of_tidy ⟨fun c hc => h c (List.mem_of_head? hc), fun c hc => h c (List.mem_of_getLast? hc)⟩

/-- Trimming takes off what is to be taken off at the ends of a tidy text. -/
theorem trimBy_append {lead trail : List Char} (hl : ∀ c ∈ lead, p c = true)
    (ht : ∀ c ∈ trail, p c = true) (h : Tidy p cs) : trimBy p (lead ++ (cs ++ trail)) = cs := by
  have htrail : ∀ c ∈ trail.reverse, p c = true := fun c hc => ht c (List.mem_reverse.1 hc)
  unfold trimBy
  rw [List.dropWhile_append_of_pos hl]
  cases cs with
  | nil => rw [List.nil_append, List.dropWhile_eq_nil_iff.2 ht]; rfl
  | cons c cs =>
    have hlast : ∀ c' ∈ (c :: cs).reverse.head?, p c' = false := by
      rw [List.head?_reverse]
      exact h.2
    have hhead : ∀ d ∈ (c :: cs ++ trail).head?, p d = false := fun d hd => h.1 d hd
    rw [dropWhile_of_head? hhead, List.reverse_append, List.dropWhile_append_of_pos htrail,
      dropWhile_of_head? hlast, List.reverse_reverse]

theorem exists_trimBy (p : Char → Bool) (cs : List Char) : ∃ lead trail,
    (∀ c ∈ lead, p c = true) ∧ (∀ c ∈ trail, p c = true) ∧ cs = lead ++ (trimBy p cs ++ trail) := by
  refine ⟨cs.takeWhile p, ((cs.dropWhile p).reverse.takeWhile p).reverse,
    fun c hc => List.mem_takeWhile_imp hc,
    fun c hc => List.mem_takeWhile_imp (List.mem_reverse.1 hc), ?_⟩
  rw [trimBy, ← List.reverse_append, List.takeWhile_append_dropWhile, List.reverse_reverse,
    List.takeWhile_append_dropWhile]

theorem toNat_of_isAlpha {c : Char} (h : c.isAlpha = true) :
    65 ≤ c.toNat ∧ c.toNat ≤ 90 ∨ 97 ≤ c.toNat ∧ c.toNat ≤ 122 := by
  rcases (Bool.or_eq_true _ _).mp h with hupper | hlower
  · exact .inl (of_decide_eq_true hupper)
  · obtain ⟨hge, hle⟩ := (Bool.and_eq_true _ _).mp hlower
    exact .inr ⟨of_decide_eq_true hge, of_decide_eq_true hle⟩

theorem isBlank_of_isAlpha {c : Char} (h : c.isAlpha = true) : isBlank c = false := by
  have hrange := toNat_of_isAlpha h
  simp only [isBlank, Ranges.contains, blankRanges, List.any_cons, List.any_nil, Bool.or_false,
    Bool.or_eq_false_iff, Bool.and_eq_false_iff, decide_eq_false_iff_not]
  omega

end FormulaGraph.Text
