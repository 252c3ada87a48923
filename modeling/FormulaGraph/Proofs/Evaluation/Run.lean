import FormulaGraph.Session

/-! What is true at the end of an evaluation, whether it gives a value or breaks off. -/
namespace FormulaGraph.Evaluation

variable {α β : Type}

/-- From the session `s`, the evaluation ends with a value and a session that `ok` holds of, or
with an error and a session that `err` holds of. -/
def Ensures (x : Evaluation α) (s : Session) (ok : α → Session → Prop)
    (err : EvaluationError → Session → Prop) : Prop :=
  match (x.run s : Except EvaluationError α × Session) with
  | (.ok a, t) => ok a t
  | (.error e, t) => err e t

variable {x : Evaluation α} {s t : Session} {ok : α → Session → Prop}
  {err : EvaluationError → Session → Prop}

theorem Ensures.ok_of_run (h : x.Ensures s ok err) {a : α}
    (hr : (x.run s : Except EvaluationError α × Session) = (.ok a, t)) : ok a t := by
  unfold Ensures at h
  rwa [hr] at h

theorem Ensures.err_of_run (h : x.Ensures s ok err) {e : EvaluationError}
    (hr : (x.run s : Except EvaluationError α × Session) = (.error e, t)) : err e t := by
  unfold Ensures at h
  rwa [hr] at h

theorem ensures_of_run {a : α}
    (hr : (x.run s : Except EvaluationError α × Session) = (.ok a, t)) :
    x.Ensures s ok err ↔ ok a t := by
  unfold Ensures
  rw [hr]

theorem ensures_of_run_error {e : EvaluationError}
    (hr : (x.run s : Except EvaluationError α × Session) = (.error e, t)) :
    x.Ensures s ok err ↔ err e t := by
  unfold Ensures
  rw [hr]

theorem Ensures.exists_run (h : x.Ensures s ok fun _ _ => False) :
    ∃ a t, (x.run s : Except EvaluationError α × Session) = (.ok a, t) ∧ ok a t := by
  unfold Ensures at h
  split at h
  · rename_i a t hrun
    exact ⟨a, t, hrun, h⟩
  · contradiction

theorem ensures_of_forall (hok : ∀ a t, ok a t) (herr : ∀ e t, err e t) : x.Ensures s ok err := by
  unfold Ensures
  split
  · exact hok _ _
  · exact herr _ _

theorem Ensures.imp {ok' : α → Session → Prop} {err' : EvaluationError → Session → Prop}
    (h : x.Ensures s ok err) (hok : ∀ a t, ok a t → ok' a t) (herr : ∀ e t, err e t → err' e t) :
    x.Ensures s ok' err' := by
  unfold Ensures at h ⊢
  split at h
  · exact hok _ _ h
  · exact herr _ _ h

theorem Ensures.and {ok' : α → Session → Prop} {err' : EvaluationError → Session → Prop}
    (h : x.Ensures s ok err) (h' : x.Ensures s ok' err') :
    x.Ensures s (fun a t => ok a t ∧ ok' a t) (fun e t => err e t ∧ err' e t) := by
  unfold Ensures at *
  split at h <;> simp_all

@[simp] theorem ensures_pure (a : α) : (pure a : Evaluation α).Ensures s ok err ↔ ok a s := Iff.rfl

@[simp] theorem ensures_throw (e : EvaluationError) :
    (throw e : Evaluation α).Ensures s ok err ↔ err e s := Iff.rfl

@[simp] theorem ensures_get {ok : Session → Session → Prop} :
    (get : Evaluation Session).Ensures s ok err ↔ ok s s := Iff.rfl

@[simp] theorem ensures_modify (f : Session → Session) {ok : PUnit → Session → Prop} :
    (modify f : Evaluation PUnit).Ensures s ok err ↔ ok ⟨⟩ (f s) := Iff.rfl

@[simp] theorem ensures_bind (f : α → Evaluation β) {ok : β → Session → Prop} :
    (x >>= f).Ensures s ok err ↔ x.Ensures s (fun a t => (f a).Ensures t ok err) err := by
  have hrun : ((x >>= f).run s : Except EvaluationError β × Session) =
      match (x.run s : Except EvaluationError α × Session) with
      | (.ok a, t) => (f a).run t
      | (.error e, t) => (.error e, t) := by
    change (ExceptT.bindCont f (x.run s).1 (x.run s).2 : Except EvaluationError β × Session) = _
    generalize (x.run s : Except EvaluationError α × Session) = r
    rcases r with ⟨a | e, t⟩ <;> rfl
  unfold Ensures
  rw [hrun]
  rcases (x.run s : Except EvaluationError α × Session) with ⟨a | e, t⟩ <;> rfl

@[simp] theorem ensures_ofArithmetic_ok (a : α) :
    (ofArithmetic (.ok a)).Ensures s ok err ↔ ok a s := Iff.rfl

@[simp] theorem ensures_ofArithmetic_error (e : ArithmeticError) :
    (ofArithmetic (.error e) : Evaluation α).Ensures s ok err ↔ err (.arithmetic e) s := Iff.rfl

@[simp] theorem ensures_fail (fault : RuleFault) (rule last : Value) (rules : Order)
    (owner : Option String) : (fail fault rule last rules owner : Evaluation α).Ensures s ok err ↔
      err (.invalidRule fault ⟨s.values, rule, last, rules, owner⟩) s := Iff.rfl

@[simp] theorem ensures_within (key : String) :
    (within key x).Ensures s ok err ↔
      x.Ensures (s.push key) (fun a t => ok a t.pop) (fun e t => err e t.pop) := by
  have hrun : ((within key x).run s : Except EvaluationError α × Session) =
      ((x.run (s.push key)).1, (x.run (s.push key)).2.pop) := rfl
  unfold Ensures
  rw [hrun]
  rcases (x.run (s.push key) : Except EvaluationError α × Session) with ⟨a | e, t⟩ <;> rfl

@[simp] theorem ensures_keep (key : String) (v : Value) {ok : Value → Session → Prop} :
    (keep key v).Ensures s ok err ↔
      if v.isWritable then ok v (s.store key v) else err .longInteger (s.store key v) := by
  unfold keep
  rw [ensures_bind, ensures_modify]
  split <;> rfl

theorem ensures_lookup (ref : String) (rule last : Value) (rules : Order) (owner : Option String)
    {ok : Value → Session → Prop} : (lookup ref rule last rules owner).Ensures s ok err ↔
      match s.values.get? (s.namespaces.extend ref) with
      | some v => ok v s
      | none => err (.invalidRule (.notComputed (s.namespaces.extend ref))
          ⟨s.values, rule, last, rules, owner⟩) s := by
  unfold lookup
  rw [ensures_bind, ensures_get]
  dsimp only
  cases s.values.get? (s.namespaces.extend ref) <;> simp

end FormulaGraph.Evaluation
