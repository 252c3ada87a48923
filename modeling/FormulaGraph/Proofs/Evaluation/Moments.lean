import Mathlib.Data.List.Perm.Subperm
import FormulaGraph.Proofs.Evaluation.Agreement
import FormulaGraph.Proofs.Evaluation.Machine

/-! The moments of an evaluation. What a step of the machine does to the session is one of four
things: it opens an identifier, closes one, stores a value or changes nothing. From this, at every
moment, the identifiers on the stack are distinct, have orders and have no values. -/
namespace FormulaGraph

namespace Evaluation

def still : Frame where
  keeps s t := t = s
  breaks _ s t := t = s
  refl _ := rfl
  trans h h' := h'.trans h
  after h h' := h'.trans h
  namespaces h := h ▸ rfl
  known h := h ▸ id
  fault _ _ _ := rfl
  arithmetic _ _ := rfl

end Evaluation

namespace Machine

open Evaluation

def Frame.key? : Frame → Option String
  | order key => some key
  | _ => none

/-- The identifier whose order has just ended, with its value. -/
def Control.completed? : Control → Option (String × Value)
  | store key v => some (key, v)
  | _ => none

/-- The identifiers that wait for their orders, the outermost first. -/
def Configuration.opened (c : Configuration) : List String :=
  (c.waiting.filterMap Frame.key?).reverse

/-- What one step of the machine does. -/
inductive Move (c d : Configuration) : Prop
  | enter (key : String) (hnew : c.session.values.get? key = none)
      (horder : key ∈ c.session.orders.keys) (hidle : key ∉ c.session.inProgress)
      (hsession : d.session = c.session.push key) (hopened : d.opened = c.opened ++ [key])
      (hbefore : c.control.completed? = none) (hafter : d.control.completed? = none)
  | leave (key : String) (hsession : d.session = c.session.pop)
      (hopened : c.opened = d.opened ++ [key]) (hbefore : c.control.completed? = none)
      (hafter : ∀ k v, d.control.completed? = some (k, v) → k = key)
  | store (key : String) (v : Value) (hsession : d.session = c.session.store key v)
      (hopened : d.opened = c.opened) (hbefore : c.control.completed? = some (key, v))
      (hafter : d.control.completed? = none)
  | quiet (hsession : d.session = c.session ∨ d.session = c.session.count)
      (hopened : d.opened = c.opened) (hbefore : c.control.completed? = none)
      (hafter : d.control.completed? = none)

section Steps

variable {c d : Configuration} {s : Session} {waiting : List Frame}

theorem Move.of_perform {x : Evaluation Value} {next : Value → Control}
    (hx : x.Ensures s (fun _ t => t = s) fun _ t => t = s)
    (hsession : s = c.session ∨ s = c.session.count)
    (hopened : (waiting.filterMap Frame.key?).reverse = c.opened)
    (hbefore : c.control.completed? = none) (hnext : ∀ v, (next v).completed? = none) :
    Move c (perform x s next waiting) := by
  unfold Ensures at hx
  unfold perform
  generalize (x.run s : Except EvaluationError Value × Session) = r at hx
  rcases r with ⟨e | v, t⟩
  · exact .quiet (hx ▸ hsession) hopened hbefore rfl
  · exact .quiet (hx ▸ hsession) hopened hbefore (hnext v)

theorem Move.of_keep (s : Session) (key : String) (v : Value) (waiting : List Frame) :
    Move ⟨s, .store key v, waiting⟩ (perform (keep key v) s (.done <| .ok ·) waiting) := by
  have hkeep : (keep key v).Ensures s (fun _ t => t = s.store key v)
      fun _ t => t = s.store key v := by
    rw [ensures_keep]
    split <;> rfl
  unfold Ensures at hkeep
  unfold perform
  generalize ((keep key v).run s : Except EvaluationError Value × Session) = r at hkeep
  rcases r with ⟨e | w, t⟩ <;> exact .store key v hkeep rfl rfl rfl

theorem still_ofArithmetic (x : Except ArithmeticError Value) :
    (ofArithmetic x).Ensures s (fun _ t => t = s) fun _ t => t = s :=
  Frame.ensures_ofArithmetic (F := still) fun _ _ => rfl

theorem move_lookUp (s : Session) (identifier : String) (waiting : List Frame) :
    Move ⟨s, .resolve identifier, waiting⟩ (lookUp s identifier waiting) := by
  unfold lookUp
  dsimp only
  split
  · exact .quiet (Or.inl rfl) rfl rfl rfl
  split
  · exact .quiet (Or.inl rfl) rfl rfl rfl
  rename_i hv _ rules ho
  split
  · exact .quiet (Or.inl rfl) rfl rfl rfl
  · rename_i hidle
    refine .enter _ hv (Table.mem_keys_iff.2 ⟨rules, ho⟩) (by simpa using hidle) rfl ?_ rfl rfl
    simp [Configuration.opened, Frame.key?]

theorem move_takeRight (cursor : Cursor) (x : Value) (op : Op) (right : Term)
    (hsession : c.session = s) (hopened : (waiting.filterMap Frame.key?).reverse = c.opened)
    (hbefore : c.control.completed? = none) :
    Move c (takeRight s cursor x op waiting right) := by
  cases right with
  | number y =>
    exact .of_perform (still_ofArithmetic _) (Or.inl hsession.symm) hopened hbefore fun _ => rfl
  | ref name => exact .quiet (Or.inl hsession.symm) hopened hbefore rfl

theorem move_take (cursor : Cursor) (last : Value) (step : Step) (hsession : c.session = s)
    (hopened : (waiting.filterMap Frame.key?).reverse = c.opened)
    (hbefore : c.control.completed? = none) :
    Move c (take s cursor last waiting step) := by
  have hperform : ∀ step : Step, step.dependencies = [] → Move c
      (perform (applyStep (fun _ => throw .tooDeep) cursor.rules cursor.owner cursor.rule last step)
        s (.applied cursor) waiting) := by
    intro step hnone
    have hresolves : ∀ ref ∈ step.dependencies, still.Admits (fun _ => throw .tooDeep) s ref := by
      simp [hnone]
    have hstill := Frame.ensures_applyStep cursor.rules cursor.owner cursor.rule last step hresolves
    exact .of_perform (hstill.imp (fun _ _ h => h.1) fun _ _ => id) (Or.inl hsession.symm) hopened
      hbefore fun _ => rfl
  cases step with
  | chain left op right =>
    change Move c (if _ then _ else _)
    split
    · exact .quiet (Or.inl hsession.symm) hopened hbefore rfl
    · cases left with
      | some ref => exact .quiet (Or.inl hsession.symm) hopened hbefore rfl
      | none => exact move_takeRight cursor last op right hsession hopened hbefore
  | _ => exact hperform _ rfl

theorem opened_cons_order (key : String) (s : Session) (control : Control) (waiting : List Frame) :
    Configuration.opened ⟨s, control, .order key :: waiting⟩ =
      (waiting.filterMap Frame.key?).reverse ++ [key] := by
  simp [Configuration.opened, Frame.key?]

theorem move_of_step (h : step c = some d) : Move c d := by
  cases Transition.of_step h with
  | resolve => exact move_lookUp _ _ _
  | execute =>
    refine .of_perform ?_ (Or.inr rfl) rfl rfl fun _ => rfl
    unfold initial
    split <;> rfl
  | finish => exact .quiet (Or.inl rfl) rfl rfl rfl
  | malformed => exact .of_perform rfl (Or.inl rfl) rfl rfl fun _ => rfl
  | take => exact move_take _ _ _ rfl rfl rfl
  | accept =>
    refine .of_perform ?_ (Or.inl rfl) rfl rfl fun _ => rfl
    unfold accept
    split <;> rfl
  | @store s key v waiting => exact .of_keep s key v waiting
  | @close s key v waiting =>
    refine .leave key rfl (opened_cons_order key s _ waiting) rfl fun k w hk => ?_
    exact (congrArg Prod.fst (Option.some.inj hk)).symm
  | @abandon s key e waiting =>
    refine .leave key rfl (opened_cons_order key s _ waiting) rfl fun k w hk => ?_
    simp [Control.completed?] at hk
  | left => exact move_takeRight _ _ _ _ rfl rfl rfl
  | right => exact .of_perform (still_ofArithmetic _) (Or.inl rfl) rfl rfl fun _ => rfl
  | @unwind s frame e waiting hframe =>
    refine .quiet (Or.inl rfl) ?_ rfl rfl
    cases frame with
    | order key => exact absurd rfl (hframe key)
    | left => rfl
    | right => rfl

end Steps

/-- The stack holds the identifiers that wait for their orders: distinct ones that have orders and
no values. Neither has one whose value is about to be stored. -/
structure Configuration.Sound (orders : Table Order) (c : Configuration) : Prop where
  orders_eq : c.session.orders = orders
  stack_eq : c.session.inProgress = c.opened
  nodup : c.session.inProgress.Nodup
  unsettled : ∀ key ∈ c.session.inProgress, key ∈ orders.keys ∧ c.session.values.get? key = none
  completed : ∀ key v, c.control.completed? = some (key, v) →
    key ∈ orders.keys ∧ c.session.values.get? key = none ∧ key ∉ c.session.inProgress

namespace Configuration

variable {orders : Table Order} {c d : Configuration}

/-- One step keeps the stack sound. -/
theorem Sound.move (h : c.Sound orders) (hm : Move c d) : d.Sound orders := by
  cases hm with
  | enter key hnew horder hidle hsession hopened hbefore hafter =>
    have hstack : d.session.inProgress = c.session.inProgress ++ [key] := by rw [hsession]; rfl
    refine ⟨by rw [hsession]; exact h.orders_eq, by rw [hstack, hopened, h.stack_eq], ?_, ?_, ?_⟩
    · rw [hstack]
      exact List.nodup_append.2 ⟨h.nodup, by simp, fun a ha b hb => by
        rw [List.mem_singleton.1 hb]
        exact fun heq => hidle (heq ▸ ha)⟩
    · intro k hk
      rw [hsession]
      rcases List.mem_append.1 (hstack ▸ hk) with hk | hk
      · exact h.unsettled k hk
      · rw [List.mem_singleton.1 hk]
        exact ⟨h.orders_eq ▸ horder, hnew⟩
    · simp [hafter]
  | leave key hsession hopened hbefore hafter =>
    have hstack : c.session.inProgress = d.opened ++ [key] := by rw [h.stack_eq, hopened]
    have hpop : d.session.inProgress = d.opened := by
      rw [hsession]
      change c.session.inProgress.dropLast = _
      rw [hstack, List.dropLast_concat]
    have hnodup := List.nodup_append.1 (hstack ▸ h.nodup)
    refine ⟨by rw [hsession]; exact h.orders_eq, hpop, hpop ▸ hnodup.1, ?_, ?_⟩
    · intro k hk
      rw [hsession]
      exact h.unsettled k (by rw [hstack, ← hpop]; exact List.mem_append_left _ hk)
    · intro k v hk
      obtain rfl := hafter k v hk
      obtain ⟨horder, hnone⟩ := h.unsettled k (by rw [hstack]; simp)
      refine ⟨horder, by rw [hsession]; exact hnone, fun hmem => ?_⟩
      exact hnodup.2.2 k (hpop ▸ hmem) k (by simp) rfl
  | store key v hsession hopened hbefore hafter =>
    obtain ⟨horder, hnone, hidle⟩ := h.completed key v hbefore
    have hstack : d.session.inProgress = c.session.inProgress := by rw [hsession]; rfl
    refine ⟨by rw [hsession]; exact h.orders_eq, by rw [hstack, hopened, h.stack_eq],
      hstack ▸ h.nodup, ?_, by simp [hafter]⟩
    intro k hk
    rw [hstack] at hk
    obtain ⟨hk', hnone'⟩ := h.unsettled k hk
    have hne : k ≠ key := by
      rintro rfl
      exact hidle hk
    refine ⟨hk', ?_⟩
    rw [hsession]
    change (c.session.values.insert key v).get? k = none
    rw [Table.get?_insert, if_neg hne, hnone']
  | quiet hsession hopened hbefore hafter =>
    have hsame : d.session.orders = c.session.orders ∧
        d.session.inProgress = c.session.inProgress ∧ d.session.values = c.session.values := by
      rcases hsession with heq | heq <;> rw [heq] <;> exact ⟨rfl, rfl, rfl⟩
    obtain ⟨horders, hstack, hvalues⟩ := hsame
    refine ⟨horders.trans h.orders_eq, by rw [hstack, hopened, h.stack_eq], hstack ▸ h.nodup, ?_,
      by simp [hafter]⟩
    rw [hstack, hvalues]
    exact h.unsettled

theorem Sound.depth_le (h : c.Sound orders) : c.session.inProgress.length ≤ orders.size := by
  have hsub := h.nodup.subperm fun key hkey => (h.unsettled key hkey).1
  simpa [Table.keys, Table.size] using hsub.length_le

/-- The configuration after so many steps, unless the machine has stopped before. -/
def moment (c : Configuration) : Nat → Option Configuration
  | 0 => some c
  | n + 1 => (c.moment n).bind step

theorem Sound.moment (h : c.Sound orders) {n : Nat} (hd : c.moment n = some d) : d.Sound orders := by
  induction n generalizing d with
  | zero =>
    obtain rfl := Option.some.inj hd
    exact h
  | succ n ih =>
    obtain ⟨b, hb, hstep⟩ := Option.bind_eq_some_iff.1 hd
    exact (ih hb).move (move_of_step hstep)

theorem exists_moment_of_reaches (h : Reaches c d) : ∃ n, c.moment n = some d := by
  induction h with
  | refl => exact ⟨0, rfl⟩
  | tail _ hstep ih =>
    obtain ⟨n, hn⟩ := ih
    exact ⟨n + 1, Option.bind_eq_some_iff.2 ⟨_, hn, hstep⟩⟩

end Configuration
end Machine
end FormulaGraph
