import FormulaGraph.Proofs.Evaluation.Following
import FormulaGraph.Proofs.Evaluation.Termination

/-! One induction for two evaluations side by side. A `Pairing` says which sessions, rules and errors
of one count as the same in the other; evaluations from such sessions then end with one value, or
both with an error. -/
namespace FormulaGraph

/-- Both rules have a step, and the steps differ in the spelling of identifiers at most, or neither
has one. -/
def Rule.ReadsAlike (ns : Namespaces) (rule rule' : Value) : Prop :=
  match Step.ofRule rule, Step.ofRule rule' with
  | .ok s, .ok t => s.Agrees ns.SameFull Eq t
  | .error _, .error _ => True
  | .ok _, .error _ => False
  | .error _, .ok _ => False

theorem Rule.readsAlike_refl (ns : Namespaces) (rule : Value) : ReadsAlike ns rule rule := by
  unfold ReadsAlike
  cases Step.ofRule rule with
  | ok s => exact Step.Agrees.refl ns.sameFull_refl (fun _ => rfl) s
  | error e => trivial

def Session.answers (s : Session) : List Call → List (Except EvaluationError Value)
  | [] => []
  | call :: rest => (s.answer call).1 :: (s.perform call).answers rest

namespace Evaluation

/-- What counts as the same in two evaluations. -/
structure Pairing (ns : Namespaces) where
  sessions : Session → Session → Prop
  rules : Value → Value → Prop
  errors : EvaluationError → EvaluationError → Prop
  same (e) : errors e e
  left {s t} : sessions s t → s.namespaces = ns
  right {s t} : sessions s t → t.namespaces = ns
  inProgress {s t} : sessions s t → s.inProgress = t.inProgress
  depth {s t} : sessions s t → s.depth = t.depth
  values {s t} : sessions s t → ∀ key, s.values.get? key = t.values.get? key
  orders {s t} : sessions s t →
    ∀ key, Option.Rel (List.Forall₂ rules) (s.orders.get? key) (t.orders.get? key)
  push {s t} : sessions s t → ∀ key, sessions (s.push key) (t.push key)
  pop {s t} : sessions s t → sessions s.pop t.pop
  count {s t} : sessions s t → sessions s.count t.count
  store {s t} : sessions s t → ∀ key v, sessions (s.store key v) (t.store key v)
  none : rules .missing .missing
  reads {rule rule'} : rules rule rule' → Rule.ReadsAlike ns rule rule'
  malformed {s t rule rule' all all' cause cause'} : sessions s t → rules rule rule' →
    List.Forall₂ rules all all' → Step.ofRule rule = .error cause → Step.ofRule rule' = .error cause' →
      ∀ last owner, errors (.invalidRule (.malformed cause) ⟨s.values, rule, last, all, owner⟩)
        (.invalidRule (.malformed cause') ⟨t.values, rule', last, all', owner⟩)
  fault {s t rule rule' all all'} : sessions s t → rules rule rule' → List.Forall₂ rules all all' →
    ∀ fault last owner, errors (.invalidRule fault ⟨s.values, rule, last, all, owner⟩)
      (.invalidRule fault ⟨t.values, rule', last, all', owner⟩)
  undefined {s t} : sessions s t →
    ∀ key, errors (.undefinedOrder key s.orders) (.undefinedOrder key t.orders)

/-- One value, or related errors. -/
inductive SameOutcome (E : EvaluationError → EvaluationError → Prop) :
    Except EvaluationError Value → Except EvaluationError Value → Prop where
  | value (v : Value) : SameOutcome E (.ok v) (.ok v)
  | error {e e' : EvaluationError} (h : E e e') : SameOutcome E (.error e) (.error e')

namespace Pairing

variable {ns : Namespaces} (P : Pairing ns) {α β : Type} {x y : Evaluation α}
  {f g : α → Evaluation β}

/-- From sessions that count as the same, both evaluations end with one value, or both with an error
of the same kind; then the sessions count as the same again. -/
def Twin (x y : Evaluation α) : Prop := ∀ ⦃s t : Session⦄, P.sessions s t →
  x.Ensures s (fun a s' => y.Ensures t (fun b t' => a = b ∧ P.sessions s' t') fun _ _ => False)
    fun e s' => y.Ensures t (fun _ _ => False) fun e' t' => P.errors e e' ∧ P.sessions s' t'

theorem twin_pure (a : α) : P.Twin (pure a) (pure a) := fun _ _ h => ⟨rfl, h⟩

theorem twin_throw (e : EvaluationError) : P.Twin (throw e : Evaluation α) (throw e) := fun _ _ h =>
  ⟨P.same e, h⟩

theorem twin_modify {f : Session → Session}
    (hf : ∀ s t : Session, P.sessions s t → P.sessions (f s) (f t)) :
    P.Twin (modify f : Evaluation PUnit) (modify f) := fun s t h => ⟨rfl, hf s t h⟩

variable {P}

theorem Twin.bind (h : P.Twin x y) (hf : ∀ a, P.Twin (f a) (g a)) :
    P.Twin (x >>= f) (y >>= g) := by
  intro s t hst
  rw [ensures_bind]
  refine Ensures.imp (h hst) (fun a s' hy => ?_) fun e s' hy => ?_
  · obtain ⟨b, t', hrun, rfl, hst'⟩ := hy.exists_run
    simp only [ensures_bind, ensures_of_run hrun]
    exact hf a hst'
  · rw [ensures_bind]
    exact hy.imp (fun _ _ => False.elim) fun _ _ => id

theorem twin_ofArithmetic (r : Except ArithmeticError α) :
    P.Twin (ofArithmetic r) (ofArithmetic r) := by
  cases r with
  | ok a => exact P.twin_pure a
  | error cause => exact P.twin_throw _

theorem Twin.within {key : String} (h : P.Twin x y) : P.Twin (within key x) (within key y) := by
  intro s t hst
  simp only [ensures_within]
  refine Ensures.imp (h (P.push hst key)) (fun a s' hy => ?_) fun e s' hy => ?_
  · exact hy.imp (fun b t' hb => ⟨hb.1, P.pop hb.2⟩) fun _ _ => id
  · exact hy.imp (fun _ _ => id) fun e' t' he => ⟨he.1, P.pop he.2⟩

section Rules

variable {resolve resolve' : String → Evaluation Value} {rules rules' : Order}
  {owner : Option String} {rule rule' : Value}

theorem twin_fail (hrules : List.Forall₂ P.rules rules rules') (hrule : P.rules rule rule')
    (fault : RuleFault) (last : Value) :
    P.Twin (fail fault rule last rules owner : Evaluation α)
      (fail fault rule' last rules' owner) := fun _ _ h =>
  ⟨P.fault h hrule hrules fault last owner, h⟩

theorem twin_lookup (hrules : List.Forall₂ P.rules rules rules') (hrule : P.rules rule rule')
    {ref ref' : String} (href : ns.SameFull ref ref') (last : Value) :
    P.Twin (lookup ref rule last rules owner) (lookup ref' rule' last rules' owner) := by
  intro s t h
  have hfull : ns.extend ref = ns.extend ref' := href
  simp only [ensures_lookup]
  rw [P.left h, P.right h, ← hfull, ← P.values h]
  cases s.values.get? (ns.extend ref) with
  | none => exact ⟨P.fault h hrule hrules _ last owner, h⟩
  | some v => exact ⟨rfl, h⟩

def Resolves (P : Pairing ns) (resolve resolve' : String → Evaluation Value) : Prop :=
  ∀ ref ref', ns.SameFull ref ref' → P.Twin (resolve ref) (resolve' ref')

theorem twin_applyStep (hres : P.Resolves resolve resolve')
    (hrules : List.Forall₂ P.rules rules rules') (hrule : P.rules rule rule') (last : Value)
    {step step' : Step} (h : step.Agrees ns.SameFull Eq step') :
    P.Twin (applyStep resolve rules owner rule last step)
      (applyStep resolve' rules' owner rule' last step') := by
  cases h with
  | roundUp => exact twin_ofArithmetic _
  | atLeast hx =>
    rw [hx]
    exact twin_ofArithmetic _
  | choose href comparison hx hy hz =>
    rw [hx, hy, hz]
    exact (twin_lookup hrules hrule href last).bind fun v =>
      (twin_ofArithmetic _).bind fun b => P.twin_pure _
  | reuse href => exact twin_lookup hrules hrule href last
  | @chain left left' hleft op right right' hright =>
    have hsome : left'.isSome = left.isSome := by cases hleft <;> rfl
    rw [applyStep, applyStep, hsome]
    split
    · exact P.twin_pure _
    · refine Twin.bind ?_ fun x => Twin.bind ?_ fun y => twin_ofArithmetic _
      · cases hleft with
        | none => exact P.twin_pure last
        | some href => exact hres _ _ href
      · cases hright with
        | number hy =>
          rw [hy]
          exact P.twin_pure _
        | ref hname => exact hres _ _ hname

theorem twin_runRule (hres : P.Resolves resolve resolve')
    (hrules : List.Forall₂ P.rules rules rules') (hrule : P.rules rule rule') (last : Value) :
    P.Twin (runRule resolve rules owner last rule) (runRule resolve' rules' owner last rule') := by
  have hread := P.reads hrule
  unfold Rule.ReadsAlike at hread
  unfold runRule
  cases hs : Step.ofRule rule with
  | error cause =>
    cases hs' : Step.ofRule rule' with
    | error cause' => exact fun _ _ h => ⟨P.malformed h hrule hrules hs hs' last owner, h⟩
    | ok step' =>
      rw [hs, hs'] at hread
      contradiction
  | ok step =>
    cases hs' : Step.ofRule rule' with
    | error cause' =>
      rw [hs, hs'] at hread
      contradiction
    | ok step' =>
      rw [hs, hs'] at hread
      refine (twin_applyStep hres hrules hrule last hread).bind fun v => ?_
      split
      · exact twin_fail hrules hrule _ _
      · exact P.twin_pure v

theorem twin_foldlM (hres : P.Resolves resolve resolve')
    (hrules : List.Forall₂ P.rules rules rules') {todo todo' : Order}
    (htodo : List.Forall₂ P.rules todo todo') (last : Value) :
    P.Twin (todo.foldlM (runRule resolve rules owner) last)
      (todo'.foldlM (runRule resolve' rules' owner) last) := by
  induction htodo generalizing last with
  | nil => exact P.twin_pure last
  | cons hrule _ ih =>
    rw [List.foldlM_cons, List.foldlM_cons]
    exact (twin_runRule hres hrules hrule last).bind ih

theorem twin_execute (hres : P.Resolves resolve resolve')
    (hrules : List.Forall₂ P.rules rules rules') :
    P.Twin (execute resolve rules owner) (execute resolve' rules' owner) := by
  refine (P.twin_modify fun _ _ => P.count).bind fun _ => ?_
  cases hrules with
  | nil => exact twin_fail .nil P.none _ _
  | cons hrule hrest => exact twin_foldlM hres (.cons hrule hrest) (.cons hrule hrest) _

end Rules

theorem resolves_resolve (depth : Nat) : P.Resolves (resolve depth) (resolve depth) := by
  induction depth with
  | zero => exact fun _ _ _ => P.twin_throw _
  | succ depth ih =>
    intro ref ref' href s t h
    have hfull : ns.extend ref = ns.extend ref' := href
    rw [Evaluation.resolve, Evaluation.resolve]
    simp only [ensures_bind (x := get), ensures_get]
    rw [P.left h, P.right h, ← hfull, ← P.values h]
    generalize ns.extend ref = key
    cases s.values.get? key with
    | some v => exact P.twin_pure v h
    | none =>
      have horders := P.orders h key
      dsimp only
      cases hs : s.orders.get? key with
      | none =>
        cases ht : t.orders.get? key with
        | none => exact ⟨P.undefined h key, h⟩
        | some rules' =>
          rw [hs, ht] at horders
          cases horders
      | some rules =>
        cases ht : t.orders.get? key with
        | none =>
          rw [hs, ht] at horders
          cases horders
        | some rules' =>
          rw [hs, ht] at horders
          cases horders with | some hrules =>
          have hcycle : s.cycleAt key = t.cycleAt key := by
            rw [Session.cycleAt, Session.cycleAt, P.inProgress h]
          dsimp only
          rw [P.inProgress h, hcycle]
          split
          · exact P.twin_throw _ h
          · refine Twin.bind (twin_execute ih hrules).within (fun v => ?_) h
            refine (P.twin_modify fun _ _ h => P.store h key v).bind fun _ => ?_
            split
            · exact P.twin_pure v
            · exact P.twin_throw _

/-- Calls that count as the same. -/
inductive Calls (P : Pairing ns) : Session.Call → Session.Call → Prop where
  | resolve {identifier identifier' : String} (h : ns.SameFull identifier identifier') :
    Calls P (.resolve identifier) (.resolve identifier')
  | execute {rules rules' : Order} (h : List.Forall₂ P.rules rules rules') (owner : Option String) :
    Calls P (.execute rules owner) (.execute rules' owner)

/-- Calls that count as the same have outcomes that do, and leave sessions that do. -/
theorem sameOutcome_answer {s t : Session} (h : P.sessions s t) {call call' : Session.Call}
    (hcall : P.Calls call call') : SameOutcome P.errors (s.answer call).1 (t.answer call').1 ∧
      P.sessions (s.perform call) (t.perform call') := by
  have htwin : ∀ depth, P.Twin (call.evaluation depth) (call'.evaluation depth) := by
    intro depth
    cases hcall with
    | resolve hfull => exact resolves_resolve depth _ _ hfull
    | execute hrules owner => exact twin_execute (resolves_resolve depth) hrules
  have hrun := htwin s.depth h
  rw [← Session.answer_snd, ← Session.answer_snd, Session.answer_eq, Session.answer_eq,
    ← P.depth h]
  generalize call.evaluation s.depth = x at hrun ⊢
  generalize call'.evaluation s.depth = y at hrun ⊢
  unfold Ensures at hrun
  split at hrun
  · split at hrun
    · rename_i v s' hs _ w t' ht
      obtain ⟨rfl, hst⟩ := hrun
      rw [hs, ht]
      exact ⟨.value v, hst⟩
    · contradiction
  · split at hrun
    · contradiction
    · rename_i e s' hs _ e' t' ht
      rw [hs, ht]
      exact ⟨.error hrun.1, hrun.2⟩

theorem sameOutcome_answers {s t : Session} (h : P.sessions s t) {calls calls' : List Session.Call}
    (hcalls : List.Forall₂ P.Calls calls calls') :
    List.Forall₂ (SameOutcome P.errors) (s.answers calls) (t.answers calls') := by
  induction hcalls generalizing s t with
  | nil => exact .nil
  | cons hcall _ ih =>
    obtain ⟨hout, hst⟩ := sameOutcome_answer h hcall
    exact .cons hout (ih hst)

end Pairing
end Evaluation
end FormulaGraph
