import Mathlib.Logic.Relation
import FormulaGraph.Proofs.Evaluation.Run

/-! Evaluation as a machine that does one thing at a time. A configuration holds the session, what
comes next, and what waits for it; the machine knows no recursion and no bound on its depth. An
evaluation that is not given up as too deep is a run of the machine, with the same result and the
same session at its end. -/
namespace FormulaGraph
namespace Machine

open Evaluation

/-- A rule under evaluation: the order it belongs to, whose order that is, and the rules behind it. -/
structure Cursor where
  rules : Order
  owner : Option String
  rule : Value
  todo : Order

inductive Frame where
  /-- An identifier on the stack waits for its order. -/
  | order (key : String)
  /-- A rule waits for the identifier on the left of its operation. -/
  | left (cursor : Cursor) (op : Op) (right : Term)
  /-- A rule waits for the identifier on the right of its operation. -/
  | right (cursor : Cursor) (x : Value) (op : Op)

inductive Control where
  | resolve (identifier : String)
  | execute (rules : Order) (owner : Option String)
  /-- The rules `todo` are left of an order. -/
  | proceed (rules : Order) (owner : Option String) (last : Value) (todo : Order)
  /-- A rule has made `v` of the value before it. -/
  | applied (cursor : Cursor) (v : Value)
  /-- The order of `key` has ended with the value `v`. -/
  | store (key : String) (v : Value)
  | done (result : Except EvaluationError Value)

structure Configuration where
  session : Session
  control : Control
  /-- What waits, the innermost first. -/
  waiting : List Frame

/-- Does at one stroke what resolves no identifier. -/
def perform (x : Evaluation Value) (s : Session) (next : Value → Control) (waiting : List Frame) :
    Configuration :=
  match (x.run s : Except EvaluationError Value × Session) with
  | (.ok v, t) => ⟨t, next v, waiting⟩
  | (.error e, t) => ⟨t, .done (.error e), waiting⟩

/-- Looks an identifier up, or opens its order. -/
def lookUp (s : Session) (identifier : String) (waiting : List Frame) : Configuration :=
  let key := s.namespaces.extend identifier
  match s.values.get? key with
  | some v => ⟨s, .done (.ok v), waiting⟩
  | none =>
    match s.orders.get? key with
    | none => ⟨s, .done (.error (.undefinedOrder key s.orders)), waiting⟩
    | some rules =>
      if s.inProgress.contains key then ⟨s, .done (.error (.cyclic (s.cycleAt key))), waiting⟩
      else ⟨s.push key, .execute rules (some key), .order key :: waiting⟩

def takeRight (s : Session) (cursor : Cursor) (x : Value) (op : Op) (waiting : List Frame) :
    Term → Configuration
  | .number y =>
    perform (ofArithmetic (computeValue x (some op) (.float y))) s (.applied cursor) waiting
  | .ref name => ⟨s, .resolve name, .right cursor x op :: waiting⟩

/-- Takes the left-hand side of an operation: an identifier, or the current value. -/
def takeLeft (s : Session) (cursor : Cursor) (last : Value) (op : Op) (right : Term)
    (waiting : List Frame) : Option String → Configuration
  | some ref => ⟨s, .resolve ref, .left cursor op right :: waiting⟩
  | none => takeRight s cursor last op waiting right

/-- Takes a step with the current value `last`. -/
def take (s : Session) (cursor : Cursor) (last : Value) (waiting : List Frame) :
    Step → Configuration
  | .chain left op right =>
    if left.isSome != isAbsent last then ⟨s, .applied cursor .missing, waiting⟩
    else takeLeft s cursor last op right waiting left
  | step =>
    perform (applyStep (fun _ => throw .tooDeep) cursor.rules cursor.owner cursor.rule last step) s
      (.applied cursor) waiting

def initial (rules : Order) (owner : Option String) : Evaluation Value :=
  if rules.isEmpty then fail .noRules .missing .missing rules owner else return .missing

def accept (cursor : Cursor) (v : Value) : Evaluation Value :=
  if isAbsent v then fail .noResult cursor.rule v cursor.rules cursor.owner else return v

/-- One step of the machine; it stops when nothing waits for a result. -/
def step : Configuration → Option Configuration
  | ⟨s, .resolve identifier, waiting⟩ => some (lookUp s identifier waiting)
  | ⟨s, .execute rules owner, waiting⟩ =>
    some (perform (initial rules owner) s.count (.proceed rules owner · rules) waiting)
  | ⟨s, .proceed _ _ last [], waiting⟩ => some ⟨s, .done (.ok last), waiting⟩
  | ⟨s, .proceed rules owner last (rule :: todo), waiting⟩ =>
    match Step.ofRule rule with
    | .error cause =>
      some (perform (fail (.malformed cause) rule last rules owner) s
        (.applied ⟨rules, owner, rule, todo⟩) waiting)
    | .ok step => some (take s ⟨rules, owner, rule, todo⟩ last waiting step)
  | ⟨s, .applied cursor v, waiting⟩ =>
    some (perform (accept cursor v) s (.proceed cursor.rules cursor.owner · cursor.todo) waiting)
  | ⟨s, .store key v, waiting⟩ => some (perform (keep key v) s (.done <| .ok ·) waiting)
  | ⟨s, .done (.ok v), .order key :: waiting⟩ => some ⟨s.pop, .store key v, waiting⟩
  | ⟨s, .done (.error e), .order _ :: waiting⟩ => some ⟨s.pop, .done (.error e), waiting⟩
  | ⟨s, .done (.ok x), .left cursor op right :: waiting⟩ =>
    some (takeRight s cursor x op waiting right)
  | ⟨s, .done (.ok y), .right cursor x op :: waiting⟩ =>
    some (perform (ofArithmetic (computeValue x (some op) y)) s (.applied cursor) waiting)
  | ⟨s, .done (.error e), _ :: waiting⟩ => some ⟨s, .done (.error e), waiting⟩
  | ⟨_, .done _, []⟩ => none

/-- What one step of the machine can be. -/
inductive Transition : Configuration → Configuration → Prop where
  | resolve {s : Session} {identifier : String} {waiting : List Frame} :
      Transition ⟨s, .resolve identifier, waiting⟩ (lookUp s identifier waiting)
  | execute {s : Session} {rules : Order} {owner : Option String} {waiting : List Frame} :
      Transition ⟨s, .execute rules owner, waiting⟩
        (perform (initial rules owner) s.count (.proceed rules owner · rules) waiting)
  | finish {s : Session} {rules : Order} {owner : Option String} {last : Value}
      {waiting : List Frame} :
      Transition ⟨s, .proceed rules owner last [], waiting⟩ ⟨s, .done (.ok last), waiting⟩
  | malformed {s : Session} (cursor : Cursor) {last : Value} {waiting : List Frame}
      {cause : RuleError} (hrule : Step.ofRule cursor.rule = .error cause) :
      Transition ⟨s, .proceed cursor.rules cursor.owner last (cursor.rule :: cursor.todo), waiting⟩
        (perform (fail (.malformed cause) cursor.rule last cursor.rules cursor.owner) s
          (.applied cursor) waiting)
  | take {s : Session} (cursor : Cursor) {last : Value} {waiting : List Frame} {step : Step}
      (hrule : Step.ofRule cursor.rule = .ok step) :
      Transition ⟨s, .proceed cursor.rules cursor.owner last (cursor.rule :: cursor.todo), waiting⟩
        (take s cursor last waiting step)
  | accept {s : Session} {cursor : Cursor} {v : Value} {waiting : List Frame} :
      Transition ⟨s, .applied cursor v, waiting⟩
        (perform (accept cursor v) s (.proceed cursor.rules cursor.owner · cursor.todo) waiting)
  | store {s : Session} {key : String} {v : Value} {waiting : List Frame} :
      Transition ⟨s, .store key v, waiting⟩ (perform (keep key v) s (.done <| .ok ·) waiting)
  | close {s : Session} {key : String} {v : Value} {waiting : List Frame} :
      Transition ⟨s, .done (.ok v), .order key :: waiting⟩ ⟨s.pop, .store key v, waiting⟩
  | abandon {s : Session} {key : String} {e : EvaluationError} {waiting : List Frame} :
      Transition ⟨s, .done (.error e), .order key :: waiting⟩ ⟨s.pop, .done (.error e), waiting⟩
  | left {s : Session} {cursor : Cursor} {op : Op} {right : Term} {x : Value}
      {waiting : List Frame} :
      Transition ⟨s, .done (.ok x), .left cursor op right :: waiting⟩
        (takeRight s cursor x op waiting right)
  | right {s : Session} {cursor : Cursor} {x : Value} {op : Op} {y : Value}
      {waiting : List Frame} :
      Transition ⟨s, .done (.ok y), .right cursor x op :: waiting⟩
        (perform (ofArithmetic (computeValue x (some op) y)) s (.applied cursor) waiting)
  /-- An error passes by a rule. -/
  | unwind {s : Session} {frame : Frame} {e : EvaluationError} {waiting : List Frame}
      (hframe : ∀ key, frame ≠ .order key) :
      Transition ⟨s, .done (.error e), frame :: waiting⟩ ⟨s, .done (.error e), waiting⟩

theorem Transition.of_done {s : Session} {result : Except EvaluationError Value}
    {waiting : List Frame} {d : Configuration} (h : step ⟨s, .done result, waiting⟩ = some d) :
    Transition ⟨s, .done result, waiting⟩ d := by
  cases waiting with
  | nil => cases result <;> contradiction
  | cons frame waiting =>
    cases result with
    | ok v => cases frame <;> obtain rfl := Option.some.inj h <;> constructor
    | error e =>
      cases frame with
      | order key =>
        obtain rfl := Option.some.inj h
        exact .abandon
      | left cursor op right =>
        obtain rfl := Option.some.inj h
        exact .unwind (by simp)
      | right cursor x op =>
        obtain rfl := Option.some.inj h
        exact .unwind (by simp)

theorem Transition.of_step {c d : Configuration} (h : step c = some d) : Transition c d := by
  obtain ⟨s, control, waiting⟩ := c
  cases control with
  | resolve identifier =>
    obtain rfl := Option.some.inj h
    exact .resolve
  | execute rules owner =>
    obtain rfl := Option.some.inj h
    exact .execute
  | proceed rules owner last todo =>
    cases todo with
    | nil =>
      obtain rfl := Option.some.inj h
      exact .finish
    | cons rule todo =>
      rw [step] at h
      split at h
      · rename_i hrule
        obtain rfl := Option.some.inj h
        exact .malformed ⟨rules, owner, rule, todo⟩ hrule
      · rename_i hrule
        obtain rfl := Option.some.inj h
        exact .take ⟨rules, owner, rule, todo⟩ hrule
  | applied cursor v =>
    obtain rfl := Option.some.inj h
    exact .accept
  | store key v =>
    obtain rfl := Option.some.inj h
    exact .store
  | done result => exact .of_done h

def Reaches : Configuration → Configuration → Prop :=
  Relation.ReflTransGen fun c d => step c = some d

/-- The evaluation `x` from `s` is a run of the machine from `c`: to `ok` of its value, or to its
error, unless it has been given up as too deep. -/
def Runs {α : Type} (c : Configuration) (x : Evaluation α) (s : Session)
    (waiting : List Frame) (ok : α → Session → Configuration) : Prop :=
  x.Ensures s (fun a t => Reaches c (ok a t))
    fun e t => e = .tooDeep ∨ Reaches c ⟨t, .done (.error e), waiting⟩

section Runs

variable {α β : Type} {c d : Configuration} {x : Evaluation α} {s : Session} {waiting : List Frame}
  {ok : α → Session → Configuration}

theorem runs_pure {a : α} (h : c = ok a s) : Runs c (pure a) s waiting ok := by
  subst h
  exact .refl

theorem Runs.head (hstep : step c = some d) (h : Runs d x s waiting ok) :
    Runs c x s waiting ok :=
  h.imp (fun _ _ hd => .head hstep hd) fun _ _ he => he.imp id (.head hstep)

theorem Runs.bind {f : α → Evaluation β} {ok' : β → Session → Configuration}
    (h : Runs c x s waiting ok) (hf : ∀ a t, Runs (ok a t) (f a) t waiting ok') :
    Runs c (x >>= f) s waiting ok' := by
  unfold Runs
  rw [ensures_bind]
  refine h.imp (fun a t hc => ?_) fun _ _ => id
  exact (hf a t).imp (fun _ _ hd => hc.trans hd) fun _ _ he => he.imp id hc.trans

/-- A frame that an error passes by is taken away. -/
theorem Runs.unwind {frame : Frame} (h : Runs c x s (frame :: waiting) ok)
    (hpass : ∀ e t, step ⟨t, .done (.error e), frame :: waiting⟩ =
      some ⟨t, .done (.error e), waiting⟩) : Runs c x s waiting ok :=
  h.imp (fun _ _ => id) fun e t he => he.imp id fun hc => hc.tail (hpass e t)

theorem runs_perform (x : Evaluation Value) (s : Session) (next : Value → Control) :
    Runs (perform x s next waiting) x s waiting fun v t => ⟨t, next v, waiting⟩ := by
  unfold Runs Ensures perform
  generalize (x.run s : Except EvaluationError Value × Session) = r
  rcases r with ⟨v | e, t⟩
  · exact Or.inr .refl
  · exact .refl

end Runs

variable {resolve : String → Evaluation Value}

def Resolves (resolve : String → Evaluation Value) : Prop :=
  ∀ identifier s waiting, Runs ⟨s, .resolve identifier, waiting⟩ (resolve identifier) s waiting
    fun v t => ⟨t, .done (.ok v), waiting⟩

variable (hres : Resolves resolve) (s : Session) (cursor : Cursor) (waiting : List Frame)

include hres

theorem runs_takeRight (x : Value) (op : Op) (right : Term) :
    Runs (takeRight s cursor x op waiting right)
      (termValue resolve right >>= fun y => ofArithmetic (computeValue x (some op) y)) s waiting
      fun v t => ⟨t, .applied cursor v, waiting⟩ := by
  cases right with
  | number y => exact runs_perform _ s _
  | ref name =>
    have hname := (hres name s (.right cursor x op :: waiting)).unwind fun _ _ => rfl
    refine hname.bind fun y t => ?_
    exact (runs_perform _ t _).head rfl

theorem runs_takeLeft (last : Value) (op : Op) (right : Term) (left : Option String) :
    Runs (takeLeft s cursor last op right waiting left)
      (leftValue resolve last left >>= fun x => termValue resolve right >>= fun y =>
        ofArithmetic (computeValue x (some op) y)) s waiting
      fun v t => ⟨t, .applied cursor v, waiting⟩ := by
  cases left with
  | none => exact runs_takeRight hres s cursor waiting last op right
  | some ref =>
    have href := (hres ref s (.left cursor op right :: waiting)).unwind fun _ _ => rfl
    refine href.bind fun x t => ?_
    exact (runs_takeRight hres t cursor waiting x op right).head rfl

theorem runs_take (last : Value) (step : Step) :
    Runs (take s cursor last waiting step)
      (applyStep resolve cursor.rules cursor.owner cursor.rule last step) s waiting
      fun v t => ⟨t, .applied cursor v, waiting⟩ := by
  cases step with
  | chain left op right =>
    change Runs (if (left.isSome != isAbsent last) = true then _ else _) (if _ then _ else _) s _ _
    split
    · exact runs_pure rfl
    · exact runs_takeLeft hres s cursor waiting last op right left
  | _ => exact runs_perform _ s _

theorem runs_runRule (last : Value) :
    Runs ⟨s, .proceed cursor.rules cursor.owner last (cursor.rule :: cursor.todo), waiting⟩
      (runRule resolve cursor.rules cursor.owner last cursor.rule) s waiting
      fun v t => ⟨t, .proceed cursor.rules cursor.owner v cursor.todo, waiting⟩ := by
  unfold runRule
  cases hs : Step.ofRule cursor.rule with
  | error cause =>
    have hstep : Machine.step ⟨s, .proceed cursor.rules cursor.owner last
        (cursor.rule :: cursor.todo), waiting⟩ = some (perform
          (fail (.malformed cause) cursor.rule last cursor.rules cursor.owner) s (.applied cursor)
          waiting) := by
      rw [Machine.step, hs]
    exact Or.inr (.head hstep .refl)
  | ok step =>
    have hstep : Machine.step ⟨s, .proceed cursor.rules cursor.owner last
        (cursor.rule :: cursor.todo), waiting⟩ = some (take s cursor last waiting step) := by
      rw [Machine.step, hs]
    refine ((runs_take hres s cursor waiting last step).bind fun v t => ?_).head hstep
    exact (runs_perform (accept cursor v) t _).head rfl

theorem runs_foldlM (rules : Order) (owner : Option String) (last : Value) (todo : Order) :
    Runs ⟨s, .proceed rules owner last todo, waiting⟩
      (todo.foldlM (runRule resolve rules owner) last) s waiting
      fun v t => ⟨t, .done (.ok v), waiting⟩ := by
  induction todo generalizing s last with
  | nil =>
    have hlast : Runs ⟨s, .done (.ok last), waiting⟩ (pure last) s waiting
        fun v t => ⟨t, .done (.ok v), waiting⟩ := runs_pure rfl
    exact hlast.head rfl
  | cons rule todo ih =>
    rw [List.foldlM_cons]
    exact (runs_runRule hres s ⟨rules, owner, rule, todo⟩ waiting last).bind fun v t => ih t v

theorem runs_execute (rules : Order) (owner : Option String) :
    Runs ⟨s, .execute rules owner, waiting⟩ (execute resolve rules owner) s waiting
      fun v t => ⟨t, .done (.ok v), waiting⟩ := by
  have hstart : Runs ⟨s, .execute rules owner, waiting⟩
      (modify Session.count >>= fun _ => initial rules owner) s waiting
      fun v t => ⟨t, .proceed rules owner v rules, waiting⟩ :=
    (runs_perform (initial rules owner) s.count _).head rfl
  have hrules := hstart.bind fun v t => runs_foldlM hres t waiting rules owner v rules
  have hsame : (modify Session.count >>= fun _ => initial rules owner) >>=
      (fun v => rules.foldlM (runRule resolve rules owner) v) = execute resolve rules owner := by
    unfold execute initial
    cases rules with
    | nil => rfl
    | cons rule rest => rfl
  rwa [hsame] at hrules

omit hres in
/-- Every depth resolves by running the machine. -/
theorem resolves_resolve (depth : Nat) : Resolves (Evaluation.resolve depth) := by
  induction depth with
  | zero => exact fun _ _ _ => Or.inl rfl
  | succ depth ih =>
    intro identifier s waiting
    unfold Runs
    rw [Evaluation.resolve, ensures_bind, ensures_get]
    dsimp only
    have hstep : step ⟨s, .resolve identifier, waiting⟩ = some (lookUp s identifier waiting) := rfl
    unfold lookUp at hstep
    dsimp only at hstep
    cases hv : s.values.get? (s.namespaces.extend identifier) with
    | some v =>
      rw [hv] at hstep
      exact .head hstep .refl
    | none =>
      cases ho : s.orders.get? (s.namespaces.extend identifier) with
      | none =>
        rw [hv, ho] at hstep
        exact Or.inr (.head hstep .refl)
      | some rules =>
        rw [hv, ho] at hstep
        dsimp only at hstep ⊢
        by_cases hc : s.inProgress.contains (s.namespaces.extend identifier) = true
        · rw [if_pos hc] at hstep ⊢
          exact Or.inr (.head hstep .refl)
        · rw [if_neg hc] at hstep ⊢
          rw [ensures_bind, ensures_within]
          have hrun := runs_execute ih (s.push (s.namespaces.extend identifier))
            (.order (s.namespaces.extend identifier) :: waiting) rules
            (some (s.namespaces.extend identifier))
          refine (hrun.head hstep).imp (fun v t hd => ?_) fun e t he => he.imp id fun hd => ?_
          · have hkeep : Runs ⟨t.pop, .store (s.namespaces.extend identifier) v, waiting⟩
                (keep (s.namespaces.extend identifier) v) t.pop waiting
                fun v t => ⟨t, .done (.ok v), waiting⟩ :=
              (runs_perform _ _ _).head rfl
            exact hkeep.imp (fun _ _ hk => (hd.tail rfl).trans hk)
              fun _ _ he => he.imp id (hd.tail rfl).trans
          · exact hd.tail rfl

end Machine
end FormulaGraph
