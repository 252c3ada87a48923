import FormulaGraph.Proofs.Evaluation.Depth
import FormulaGraph.Proofs.Evaluation.Moments

/-! Evaluation ends. No evaluation is given up as too deep, so the machine that evaluates one thing
at a time stops, and it stops with what the session answers. -/
namespace FormulaGraph

namespace Session

def answer (s : Session) : Call → Except EvaluationError Value × Session
  | .resolve identifier => s.resolve identifier
  | .execute rules owner => s.execute rules owner

theorem answer_snd (s : Session) (call : Call) : (s.answer call).2 = s.perform call := by
  cases call <;> rfl

/-- The evaluation that a call begins, with evaluations nested less than `depth` deep. -/
def Call.evaluation (depth : Nat) : Call → Evaluation Value
  | .resolve identifier => Evaluation.resolve depth identifier
  | .execute rules owner => Evaluation.execute (Evaluation.resolve depth) rules owner

theorem answer_eq (s : Session) (call : Call) :
    s.answer call = (call.evaluation s.depth).run s := by
  cases call <;> rfl

theorem ensures_answer {s : Session} {call : Call} {ok : Value → Session → Prop}
    {err : EvaluationError → Session → Prop} (h : (call.evaluation s.depth).Ensures s ok err) :
    match s.answer call with
    | (.ok v, t) => ok v t
    | (.error e, t) => err e t := by
  unfold Evaluation.Ensures at h
  rw [answer_eq]
  generalize ((call.evaluation s.depth).run s : Except EvaluationError Value × Session) = r at h ⊢
  rcases r with ⟨e | v, t⟩
  · exact h
  · exact h

/-- What can happen to a session: a call, or the registration of a prefix. -/
inductive Action where
  | call (call : Call)
  | register (name uri : String)

def act (s : Session) : Action → Session
  | .call call => s.perform call
  | .register name uri => s.addPrefix name uri

/-- The session after actions in turn, whether or not they failed. -/
def through (s : Session) (history : List Action) : Session := history.foldl act s

theorem inProgress_act {s : Session} (hs : s.inProgress = []) (action : Action) :
    (s.act action).inProgress = [] := by
  cases action with
  | register name uri => exact hs
  | call call =>
    have hunsettled : s.Unsettled := by simp [Unsettled, hs]
    exact (growsTo_perform hunsettled call).inProgress.trans hs

/-- Between calls nothing is under evaluation. -/
theorem inProgress_through {s : Session} (hs : s.inProgress = []) (history : List Action) :
    (s.through history).inProgress = [] := by
  induction history generalizing s with
  | nil => exact hs
  | cons action rest ih => exact ih (inProgress_act hs action)

end Session

namespace Machine

def start (s : Session) : Session.Call → Configuration
  | .resolve identifier => ⟨s, .resolve identifier, []⟩
  | .execute rules owner => ⟨s, .execute rules owner, []⟩

def stop (outcome : Except EvaluationError Value × Session) : Configuration :=
  ⟨outcome.2, .done outcome.1, []⟩

variable {s : Session}

theorem ensures_ne_tooDeep (hs : s.inProgress = []) (call : Session.Call) :
    (call.evaluation s.depth).Ensures s (fun _ _ => True) fun e _ => e ≠ .tooDeep := by
  have hroom := Session.roomy_of_idle hs
  cases call with
  | resolve identifier =>
    exact (Evaluation.shallow.ensures_resolve hroom).imp (fun _ _ _ => trivial) fun _ _ => id
  | execute rules owner =>
    have hadmits : ∀ ref, rules.Resolves ref → Evaluation.shallow.Admits
        (Evaluation.resolve s.depth) s.count ref := fun ref _ t ht =>
      Evaluation.shallow.ensures_resolve (hroom.count.growsTo ht)
    exact (Evaluation.Frame.ensures_execute rules owner hadmits).imp (fun _ _ _ => trivial)
      fun _ _ => id

theorem runs_start (s : Session) (call : Session.Call) (depth : Nat) :
    Runs (start s call) (call.evaluation depth) s [] fun v t => stop (.ok v, t) := by
  cases call with
  | resolve identifier => exact resolves_resolve depth identifier s []
  | execute rules owner => exact runs_execute (resolves_resolve depth) s [] rules owner

/-- A call is a run of the machine from its first configuration to its last. -/
theorem reaches_stop (hs : s.inProgress = []) (call : Session.Call) :
    (s.answer call).1 ≠ .error .tooDeep ∧ Reaches (start s call) (stop (s.answer call)) := by
  have h := Session.ensures_answer ((runs_start s call s.depth).and (ensures_ne_tooDeep hs call))
  generalize s.answer call = r at h ⊢
  rcases r with ⟨e | v, t⟩
  · obtain ⟨hdeep | hreaches, hne⟩ := h
    · exact absurd hdeep hne
    · exact ⟨fun heq => hne (Except.error.inj heq), hreaches⟩
  · exact ⟨nofun, h.1⟩

theorem sound_start (hs : s.inProgress = []) (call : Session.Call) :
    (start s call).Sound s.orders := by
  have hsession : (start s call).session = s := by cases call <;> rfl
  have hopened : (start s call).opened = [] := by cases call <;> rfl
  have hcontrol : (start s call).control.completed? = none := by cases call <;> rfl
  refine ⟨by rw [hsession], by rw [hsession, hopened, hs], by rw [hsession, hs]; exact .nil, ?_, ?_⟩
  · simp [hsession, hs]
  · simp [hcontrol]

end Machine

/-- **Termination.** Every call of a session, whatever was asked of it before, ends with a value or
an error. At every moment of it the stack holds distinct identifiers that have orders and no values,
those whose orders are under evaluation, so evaluations never nest deeper than there are orders. -/
theorem evaluation_terminates (ns : Namespaces) (orders : Table Order) (values : Table Value)
    (history : List Session.Action) (call : Session.Call) :
    let s := (Session.new ns orders values).through history
    (∃ n, (Machine.start s call).moment n = some (Machine.stop (s.answer call))) ∧
    (s.answer call).1 ≠ .error .tooDeep ∧
    ∀ n c, (Machine.start s call).moment n = some c →
      c.session.inProgress = c.opened ∧
      c.session.inProgress.Nodup ∧
      (∀ key ∈ c.session.inProgress, key ∈ s.orders.keys ∧ c.session.values.get? key = none) ∧
      c.opened.length ≤ s.orders.size := by
  intro s
  have hs : s.inProgress = [] := Session.inProgress_through rfl history
  obtain ⟨hdeep, hreaches⟩ := Machine.reaches_stop hs call
  refine ⟨Machine.Configuration.exists_moment_of_reaches hreaches, hdeep, fun n c hc => ?_⟩
  have hsound := (Machine.sound_start hs call).moment hc
  exact ⟨hsound.stack_eq, hsound.nodup, hsound.unsettled, hsound.stack_eq ▸ hsound.depth_le⟩

/-- Two orders that need each other: with both on the stack, the call is about to fail. -/
theorem evaluation_terminates_of_loop :
    let orders : Table Order := Table.ofList [("a", [.text "[b]+1"]), ("b", [.text "[a]+1"])]
    let s := Session.new .standard orders Table.empty
    (∃ n, (Machine.start s (.resolve "a")).moment n =
      some (Machine.stop (s.answer (.resolve "a")))) ∧
    ∃ c, (Machine.start s (.resolve "a")).moment 4 = some c ∧ c.opened = ["a", "b"] ∧
      c.session.inProgress = c.opened ∧ c.session.inProgress.Nodup ∧
      c.opened.length ≤ s.orders.size := by
  intro orders s
  obtain ⟨hstop, -, hmoments⟩ :=
    evaluation_terminates .standard orders Table.empty [] (.resolve "a")
  have hopened : ((Machine.start s (.resolve "a")).moment 4).map (·.opened) = some ["a", "b"] := by
    decide +kernel
  obtain ⟨c, hc, hopened⟩ := Option.map_eq_some_iff.1 hopened
  obtain ⟨hstack, hnodup, -, hsize⟩ := hmoments 4 c hc
  exact ⟨hstop, c, hc, hopened, hstack, hnodup, hsize⟩

end FormulaGraph
