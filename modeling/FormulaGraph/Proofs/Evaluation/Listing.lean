import FormulaGraph.Proofs.Evaluation.Pairing

/-! In which order a table lists its values is of no account: evaluations that begin with the same
values, listed differently, end alike. -/
namespace FormulaGraph

/-- The tables have the same entries, which they may list in different orders. -/
def Table.Relists {α : Type} (t u : Table α) : Prop := ∀ key, t.get? key = u.get? key

namespace Table.Relists

variable {α : Type} {t u : Table α}

theorem mem_keys_iff (h : t.Relists u) {key : String} : key ∈ t.keys ↔ key ∈ u.keys := by
  rw [Table.mem_keys_iff, Table.mem_keys_iff, h key]

theorem contains_eq (h : t.Relists u) : t.contains = u.contains := by
  funext key
  unfold Table.contains
  rw [h key]

theorem insert (h : t.Relists u) (key : String) (v : α) :
    (t.insert key v).Relists (u.insert key v) := by
  intro name
  rw [Table.get?_insert, Table.get?_insert, h name]

end Table.Relists

/-- The errors differ at most in how they list the values at the time. -/
inductive EvaluationError.Relists : EvaluationError → EvaluationError → Prop where
  | same (e : EvaluationError) : Relists e e
  | values (fault : RuleFault) {t u : Table Value} (h : t.Relists u) (rule last : Value)
      (rules : Order) (owner : Option String) :
      Relists (.invalidRule fault ⟨t, rule, last, rules, owner⟩)
        (.invalidRule fault ⟨u, rule, last, rules, owner⟩)

/-- The sessions differ at most in how they list their values. -/
structure Session.Relists (s t : Session) : Prop where
  namespaces : t.namespaces = s.namespaces
  orders : t.orders = s.orders
  values : s.values.Relists t.values
  inProgress : t.inProgress = s.inProgress
  evaluations : t.evaluations = s.evaluations

def Evaluation.relisting (ns : Namespaces) : Evaluation.Pairing ns where
  sessions s t := s.namespaces = ns ∧ s.Relists t
  rules := Eq
  errors := EvaluationError.Relists
  same := .same
  left h := h.1
  right h := h.2.namespaces.trans h.1
  inProgress h := h.2.inProgress.symm
  depth h := by rw [Session.depth, Session.depth, h.2.orders]
  values h := h.2.values
  orders h key := by
    rw [h.2.orders]
    exact rel_refl (fun _ => List.forall₂_same.2 fun _ _ => rfl) _
  push h key := ⟨h.1, h.2.namespaces, h.2.orders, h.2.values,
    congrArg (· ++ [key]) h.2.inProgress, h.2.evaluations⟩
  pop h := ⟨h.1, h.2.namespaces, h.2.orders, h.2.values,
    congrArg List.dropLast h.2.inProgress, h.2.evaluations⟩
  count h := ⟨h.1, h.2.namespaces, h.2.orders, h.2.values, h.2.inProgress,
    congrArg (· + 1) h.2.evaluations⟩
  store h key v := ⟨h.1, h.2.namespaces, h.2.orders, h.2.values.insert key v, h.2.inProgress,
    h.2.evaluations⟩
  none := rfl
  reads h := h ▸ Rule.readsAlike_refl ns _
  malformed h hrule hrules hs hs' last owner := by
    obtain rfl := hrule
    obtain rfl := List.forall₂_eq_eq_eq ▸ hrules
    obtain rfl := Except.error.inj (hs.symm.trans hs')
    exact .values _ h.2.values _ last _ owner
  fault h hrule hrules fault last owner := by
    obtain rfl := hrule
    obtain rfl := List.forall₂_eq_eq_eq ▸ hrules
    exact .values fault h.2.values _ last _ owner
  undefined h key := by
    rw [h.2.orders]
    exact .same _

/-- Sessions that list their values differently resolve an identifier alike. -/
theorem Session.Relists.resolve {s t : Session} (h : s.Relists t) (ref : String) :
    (∃ v s' t', s.resolve ref = (.ok v, s') ∧ t.resolve ref = (.ok v, t') ∧ s'.Relists t') ∨
      ∃ e e' s' t', s.resolve ref = (.error e, s') ∧ t.resolve ref = (.error e', t') ∧
        e.Relists e' := by
  have hpair : (Evaluation.relisting s.namespaces).sessions s t := ⟨rfl, h⟩
  have hcall : (Evaluation.relisting s.namespaces).Calls (.resolve ref) (.resolve ref) :=
    .resolve (s.namespaces.sameFull_refl ref)
  obtain ⟨hout, -, hst⟩ := Evaluation.Pairing.sameOutcome_answer hpair hcall
  simp only [answer, perform] at hout hst
  generalize s.resolve ref = r, t.resolve ref = r' at hout hst ⊢
  obtain ⟨result, s'⟩ := r
  obtain ⟨result', t'⟩ := r'
  cases hout with
  | value v => exact Or.inl ⟨v, s', t', rfl, rfl, hst⟩
  | error he => exact Or.inr ⟨_, _, s', t', rfl, rfl, he⟩

end FormulaGraph
