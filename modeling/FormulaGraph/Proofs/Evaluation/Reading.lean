import FormulaGraph.Dependency.Graph

/-! The value of a computation order where every identifier is read and nothing is evaluated. A
value that is found depends only on the identifiers that the order mentions, and it stays the same
when more of them become known. -/
namespace FormulaGraph

open Evaluation

/-- The value of a term, where `read` gives the values of identifiers. -/
def Term.value? (read : String → Option Value) : Term → Option Value
  | ref name => read name
  | number y => some (.float y)

/-- What a step makes of the current value, where `read` gives the values of identifiers. -/
def Step.value? (read : String → Option Value) (last : Value) : Step → Option Value
  | .roundUp => (FormulaGraph.roundUp last).toOption
  | .atLeast threshold => (maxOf last (.real threshold)).toOption
  | .choose ref comparison constant thenValue elseValue => do
    let v ← read ref
    let b ← (holds comparison v constant).toOption
    return .float (if b then thenValue else elseValue)
  | .reuse ref => read ref
  | .chain left op right =>
    if left.isSome != isAbsent last then none
    else do
      let x ← left.elim (some last) read
      let y ← right.value? read
      (computeValue x (some op) y).toOption

namespace Rule

def value? (read : String → Option Value) (last rule : Value) : Option Value :=
  match Step.ofRule rule with
  | .ok step => (step.value? read last).filter (!isAbsent ·)
  | .error _ => none

def references (rule : Value) : List String :=
  match Step.ofRule rule with
  | .ok step => step.references
  | .error _ => []

end Rule

/-- The value of an order that is not empty. -/
def Order.value? (read : String → Option Value) (rules : Order) : Option Value :=
  if rules.isEmpty then none else rules.foldlM (Rule.value? read) .missing

variable {read read' : String → Option Value}

theorem Step.dependencies_subset (step : Step) : step.dependencies ⊆ step.references := by
  cases step <;> simp [dependencies]

theorem Step.read_of_value? {step : Step} {last v : Value} (h : step.value? read last = some v) :
    ∀ ref ∈ step.references, ∃ x, read ref = some x := by
  intro ref href
  cases step with
  | roundUp => simp [references] at href
  | atLeast threshold => simp [references] at href
  | choose name comparison constant thenValue elseValue =>
    obtain rfl : ref = name := by simpa [references] using href
    obtain ⟨x, hx, -⟩ := Option.bind_eq_some_iff.1 h
    exact ⟨x, hx⟩
  | reuse name =>
    obtain rfl : ref = name := by simpa [references] using href
    exact ⟨v, h⟩
  | chain left op right =>
    rw [value?] at h
    split at h
    · contradiction
    · obtain ⟨x, hx, h⟩ := Option.bind_eq_some_iff.1 h
      obtain ⟨y, hy, -⟩ := Option.bind_eq_some_iff.1 h
      simp only [references, List.mem_append, Option.mem_toList] at href
      rcases href with rfl | href
      · exact ⟨x, hx⟩
      · cases right with
        | number z => simp [Term.ref?] at href
        | ref name =>
          obtain rfl : name = ref := by simpa [Term.ref?] using href
          exact ⟨y, hy⟩

theorem Step.value?_mono {step : Step} {last v : Value} (h : step.value? read last = some v)
    (hread : ∀ ref ∈ step.references, ∀ x, read ref = some x → read' ref = some x) :
    step.value? read' last = some v := by
  have heq : ∀ ref ∈ step.references, read' ref = read ref := by
    intro ref href
    obtain ⟨x, hx⟩ := read_of_value? h ref href
    rw [hx, hread ref href x hx]
  rw [← h]
  cases step with
  | roundUp => rfl
  | atLeast threshold => rfl
  | choose name comparison constant thenValue elseValue =>
    simp only [value?, heq name (by simp [references])]
  | reuse name => exact heq name (by simp [references])
  | chain left op right =>
    have hl : ∀ ref, left = some ref → read' ref = read ref := fun ref hl =>
      heq ref (by simp [references, hl])
    have hr : ∀ name, right = .ref name → read' name = read name := fun name hr =>
      heq name (by simp [references, hr, Term.ref?])
    cases left with
    | none => cases right with
      | number y => rfl
      | ref name => simp only [value?, Term.value?, hr name rfl, Option.elim_none]
    | some ref => cases right with
      | number y => simp only [value?, Term.value?, hl ref rfl, Option.elim_some]
      | ref name => simp only [value?, Term.value?, hl ref rfl, hr name rfl, Option.elim_some]

namespace Rule

theorem value?_eq_some_iff {last rule v : Value} : value? read last rule = some v ↔
    ∃ step, Step.ofRule rule = .ok step ∧ step.value? read last = some v ∧ isAbsent v = false := by
  unfold value?
  cases Step.ofRule rule with
  | error cause => simp
  | ok step => simp [Option.filter_eq_some_iff]

theorem references_of_ok {rule : Value} {step : Step} (h : Step.ofRule rule = .ok step) :
    references rule = step.references := by
  unfold references
  rw [h]

theorem dependencies_subset (rule : Value) :
    DependencyGraph.ruleDependencies rule ⊆ references rule := by
  unfold DependencyGraph.ruleDependencies references
  cases Step.ofRule rule with
  | ok step => exact step.dependencies_subset
  | error cause => exact List.Subset.refl []

theorem value?_mono {last rule v : Value} (h : value? read last rule = some v)
    (hread : ∀ ref ∈ references rule, ∀ x, read ref = some x → read' ref = some x) :
    value? read' last rule = some v := by
  obtain ⟨step, hs, hv, ha⟩ := value?_eq_some_iff.1 h
  rw [references_of_ok hs] at hread
  exact value?_eq_some_iff.2 ⟨step, hs, Step.value?_mono hv hread, ha⟩

theorem read_of_value? {last rule v : Value} (h : value? read last rule = some v) :
    ∀ ref ∈ references rule, ∃ x, read ref = some x := by
  obtain ⟨step, hs, hv, -⟩ := value?_eq_some_iff.1 h
  rw [references_of_ok hs]
  exact Step.read_of_value? hv

theorem foldlM_value?_mono {rules : Order} {last v : Value}
    (h : rules.foldlM (value? read) last = some v)
    (hread : ∀ rule ∈ rules, ∀ ref ∈ references rule, ∀ x, read ref = some x → read' ref = some x) :
    rules.foldlM (value? read') last = some v := by
  induction rules generalizing last with
  | nil => exact h
  | cons rule rest ih =>
    rw [List.foldlM_cons] at h ⊢
    obtain ⟨w, hw, h⟩ := Option.bind_eq_some_iff.1 h
    refine Option.bind_eq_some_iff.2 ⟨w, value?_mono hw (hread rule (by simp)), ?_⟩
    exact ih h fun r hr => hread r (by simp [hr])

theorem read_of_foldlM {rules : Order} {last v : Value}
    (h : rules.foldlM (value? read) last = some v) :
    ∀ rule ∈ rules, (∃ step, Step.ofRule rule = .ok step) ∧
      ∀ ref ∈ references rule, ∃ x, read ref = some x := by
  induction rules generalizing last with
  | nil => simp
  | cons rule rest ih =>
    rw [List.foldlM_cons] at h
    obtain ⟨w, hw, h⟩ := Option.bind_eq_some_iff.1 h
    intro r hr
    rcases List.mem_cons.1 hr with rfl | hr
    · obtain ⟨step, hs, -, -⟩ := value?_eq_some_iff.1 hw
      exact ⟨⟨step, hs⟩, read_of_value? hw⟩
    · exact ih h r hr

end Rule

namespace Order

theorem value?_eq_some_iff {rules : Order} {v : Value} : value? read rules = some v ↔
    rules ≠ [] ∧ rules.foldlM (Rule.value? read) .missing = some v := by
  unfold value?
  cases rules with
  | nil => simp
  | cons rule rest => simp

/-- The value of an order stays when more becomes known. -/
theorem value?_mono {rules : Order} {v : Value} (h : value? read rules = some v)
    (hread : ∀ rule ∈ rules, ∀ ref ∈ Rule.references rule,
      ∀ x, read ref = some x → read' ref = some x) : value? read' rules = some v := by
  obtain ⟨hne, hv⟩ := value?_eq_some_iff.1 h
  exact value?_eq_some_iff.2 ⟨hne, Rule.foldlM_value?_mono hv hread⟩

/-- An order with a value has only readable rules, and all their references are known. -/
theorem read_of_value? {rules : Order} {v : Value} (h : value? read rules = some v) :
    ∀ rule ∈ rules, (∃ step, Step.ofRule rule = .ok step) ∧
      ∀ ref ∈ Rule.references rule, ∃ x, read ref = some x :=
  Rule.read_of_foldlM (value?_eq_some_iff.1 h).2

/-- Two readings that do not contradict each other on what an order mentions give it one value. -/
theorem value?_unique {rules : Order} {v w : Value} (hv : value? read rules = some v)
    (hw : value? read' rules = some w)
    (hagree : ∀ rule ∈ rules, ∀ ref ∈ Rule.references rule,
      ∀ x y, read ref = some x → read' ref = some y → x = y) : v = w := by
  have h : value? read' rules = some v := by
    refine value?_mono hv fun rule hrule ref href x hx => ?_
    obtain ⟨y, hy⟩ := (read_of_value? hw rule hrule).2 ref href
    rw [hy, hagree rule hrule ref href x y hx hy]
  exact Option.some.inj (h.symm.trans hw)

end Order
end FormulaGraph
