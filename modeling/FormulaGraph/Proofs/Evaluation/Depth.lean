import Mathlib.Data.List.Perm.Subperm
import FormulaGraph.Proofs.Evaluation.Growth

/-! How deep evaluations nest. The identifiers on the stack are distinct and have orders, so there
are never more of them than orders, and with room for one more no evaluation is given up as too deep.
With less room an evaluation is the same or given up. -/
namespace FormulaGraph

namespace Session

/-- The stack is sound, and with `depth` more levels there is one for each order and one to spare. -/
structure Roomy (s : Session) (depth : Nat) : Prop where
  unsettled : s.Unsettled
  nodup : s.inProgress.Nodup
  subset : s.inProgress ⊆ s.orders.keys
  room : s.orders.size < s.inProgress.length + depth

theorem Roomy.ne_zero {s : Session} {depth : Nat} (h : s.Roomy depth) : depth ≠ 0 := by
  rintro rfl
  have hle : s.inProgress.length ≤ s.orders.keys.length := (h.nodup.subperm h.subset).length_le
  have hsize : s.orders.keys.length = s.orders.size := by simp [Table.keys, Table.size]
  have hroom := h.room
  omega

theorem Roomy.growsTo {s t : Session} {depth : Nat} (h : s.Roomy depth) (ht : s.GrowsTo t) :
    t.Roomy depth where
  unsettled := ht.unsettled h.unsettled
  nodup := ht.inProgress ▸ h.nodup
  subset := by rw [ht.inProgress, ht.orders]; exact h.subset
  room := by rw [ht.inProgress, ht.orders]; exact h.room

theorem Roomy.count {s : Session} {depth : Nat} (h : s.Roomy depth) : s.count.Roomy depth :=
  ⟨h.unsettled, h.nodup, h.subset, h.room⟩

theorem Roomy.enter {s : Session} {depth : Nat} (h : s.Roomy (depth + 1)) {ref : String}
    {rules : Order} (ho : s.Opens ref rules) :
    (s.enter (s.namespaces.extend ref)).Roomy depth where
  unsettled := h.unsettled.enter ho
  nodup := List.nodup_append.2 ⟨h.nodup, by simp, fun a ha b hb => by
    rw [List.mem_singleton.1 hb]
    exact fun heq => ho.idle (heq ▸ ha)⟩
  subset := by
    intro key hkey
    rcases List.mem_append.1 hkey with hkey | hkey
    · exact h.subset hkey
    · rw [List.mem_singleton.1 hkey]
      exact Table.mem_keys_iff.2 ⟨rules, ho.order⟩
  room := by
    have hlength : (s.enter (s.namespaces.extend ref)).inProgress.length =
        s.inProgress.length + 1 := List.length_append
    have hroom := h.room
    rw [hlength]
    change s.orders.size < _
    omega

theorem roomy_of_idle {s : Session} (hs : s.inProgress = []) : s.Roomy s.depth where
  unsettled := by simp [Unsettled, hs]
  nodup := hs ▸ List.nodup_nil
  subset := by simp [hs]
  room := by simp [hs, depth]

end Session

namespace Evaluation

def shallow : Protocol where
  keeps := Session.GrowsTo
  breaks e _ _ := e ≠ .tooDeep
  refl := .refl
  trans := @Session.GrowsTo.trans
  after _ h := h
  namespaces := @Session.GrowsTo.namespaces
  known := @Session.GrowsTo.get?_mono
  fault _ _ _ := nofun
  arithmetic _ _ := nofun
  ready depth _ s := s.Roomy depth
  still h ht := h.growsTo ht
  tooDeep h := absurd rfl h.ne_zero
  undefined _ _ _ := nofun
  cyclic _ _ _ _ := nofun
  enter h ho _ _ := h.enter ho
  leave h ho hst hv _ := .leave h.unsettled ho hst hv
  unwritable _ _ _ _ _ := nofun
  escape _ _ h := h

/-- The second evaluation ends as the first one does, unless that is given up as too deep. -/
def Deepens {α : Type} (x y : Evaluation α) : Prop :=
  ∀ ⦃s : Session⦄ ⦃ok : α → Session → Prop⦄ ⦃err : EvaluationError → Session → Prop⦄,
    (∀ t, ¬ err .tooDeep t) → x.Ensures s ok err → y.Ensures s ok err

section Deepens

variable {α β : Type} {x y : Evaluation α} {f g : α → Evaluation β}
  {resolve resolve' : String → Evaluation Value}

theorem Deepens.refl (x : Evaluation α) : Deepens x x := fun _ _ _ _ h => h

theorem Deepens.bind (h : Deepens x y) (hf : ∀ a, Deepens (f a) (g a)) :
    Deepens (x >>= f) (y >>= g) := by
  intro s ok err herr hx
  rw [ensures_bind] at hx ⊢
  exact (h herr hx).imp (fun a t => hf a herr) fun _ _ => id

theorem Deepens.within (h : Deepens x y) (key : String) : Deepens (within key x) (within key y) := by
  intro s ok err herr hx
  rw [ensures_within] at hx ⊢
  exact h (fun t => herr t.pop) hx

theorem Deepens.run_eq (h : Deepens x y) (s : Session) :
    (∃ t, (x.run s : Except EvaluationError α × Session) = (.error .tooDeep, t)) ∨
      (y.run s : Except EvaluationError α × Session) = x.run s := by
  rw [or_iff_not_imp_left]
  intro hdeep
  have hx : x.Ensures s (fun a t => x.run s = (.ok a, t))
      fun e t => e ≠ .tooDeep ∧ x.run s = (.error e, t) := by
    unfold Ensures
    split
    · assumption
    · rename_i e t hrun
      refine ⟨?_, hrun⟩
      rintro rfl
      exact hdeep ⟨t, hrun⟩
  have hy := h (fun t herr => herr.1 rfl) hx
  unfold Ensures at hy
  split at hy
  · rename_i a t hrun
    exact hrun.trans hy.symm
  · rename_i e t hrun
    exact hrun.trans hy.2.symm

variable (hres : ∀ ref, Deepens (resolve ref) (resolve' ref))
include hres

theorem deepens_leftValue (last : Value) (left : Option String) :
    Deepens (leftValue resolve last left) (leftValue resolve' last left) := by
  cases left with
  | none => exact .refl _
  | some ref => exact hres ref

theorem deepens_termValue (right : Term) :
    Deepens (termValue resolve right) (termValue resolve' right) := by
  cases right with
  | number y => exact .refl _
  | ref name => exact hres name

theorem deepens_applyStep (rules : Order) (owner : Option String) (rule last : Value) (step : Step) :
    Deepens (applyStep resolve rules owner rule last step)
      (applyStep resolve' rules owner rule last step) := by
  cases step with
  | chain left op right =>
    rw [applyStep, applyStep]
    split
    · exact .refl _
    · exact (deepens_leftValue hres last left).bind fun x =>
        (deepens_termValue hres right).bind fun y => .refl _
  | _ => exact .refl _

theorem deepens_runRule (rules : Order) (owner : Option String) (last rule : Value) :
    Deepens (runRule resolve rules owner last rule) (runRule resolve' rules owner last rule) := by
  unfold runRule
  cases Step.ofRule rule with
  | error cause => exact .refl _
  | ok step => exact (deepens_applyStep hres rules owner rule last step).bind fun v => .refl _

theorem deepens_foldlM (rules : Order) (owner : Option String) (last : Value) (todo : Order) :
    Deepens (todo.foldlM (runRule resolve rules owner) last)
      (todo.foldlM (runRule resolve' rules owner) last) := by
  induction todo generalizing last with
  | nil => exact .refl _
  | cons rule todo ih =>
    rw [List.foldlM_cons, List.foldlM_cons]
    exact (deepens_runRule hres rules owner last rule).bind ih

theorem deepens_execute (rules : Order) (owner : Option String) :
    Deepens (execute resolve rules owner) (execute resolve' rules owner) := by
  refine (Deepens.refl (modify Session.count)).bind fun _ => ?_
  split
  · exact .refl _
  · exact deepens_foldlM hres rules owner .missing rules

end Deepens

/-- With more room evaluations end as they do with less. -/
theorem deepens_resolve {depth depth' : Nat} (h : depth ≤ depth') (ref : String) :
    Deepens (Evaluation.resolve depth ref) (Evaluation.resolve depth' ref) := by
  induction depth generalizing depth' ref with
  | zero => exact fun s ok err herr hx => absurd hx (herr s)
  | succ depth ih =>
    obtain ⟨depth', rfl⟩ := Nat.exists_eq_add_one_of_ne_zero (Nat.ne_zero_of_lt h)
    rw [Evaluation.resolve, Evaluation.resolve]
    refine (Deepens.refl get).bind fun s => ?_
    dsimp only
    split
    · exact .refl _
    split
    · exact .refl _
    split
    · exact .refl _
    · exact ((deepens_execute (fun ref => ih (Nat.le_of_succ_le_succ h) ref) _ _).within _).bind
        fun v => .refl _

end Evaluation

namespace Session

theorem resolve_ne_tooDeep {s t : Session} (hs : s.inProgress = []) {identifier : String} :
    s.resolve identifier ≠ (.error .tooDeep, t) := by
  intro hr
  have hready : Evaluation.shallow.ready s.depth identifier s := roomy_of_idle hs
  exact (Evaluation.shallow.ensures_resolve hready).err_of_run hr rfl

/-- Where there is room for `room` evaluations inside each other, resolving an identifier ends as it
does where there is room for all orders, or it is given up with less room than there are orders. -/
theorem run_resolve_or_tooDeep {s : Session} (hs : s.inProgress = []) (room : Nat)
    (identifier : String) : (Evaluation.resolve room identifier).run s = s.resolve identifier ∨
      room ≤ s.orders.size ∧
        ∃ t, (Evaluation.resolve room identifier).run s = (.error .tooDeep, t) := by
  by_cases hroom : room ≤ s.orders.size
  · rcases (Evaluation.deepens_resolve (Nat.le_succ_of_le hroom) identifier).run_eq s with h | h
    · exact Or.inr ⟨hroom, h⟩
    · exact Or.inl h.symm
  · have hdepth : s.depth ≤ room := Nat.lt_of_not_le hroom
    rcases (Evaluation.deepens_resolve hdepth identifier).run_eq s with ⟨t, h⟩ | h
    · exact absurd h (resolve_ne_tooDeep hs)
    · exact Or.inl h

end Session
end FormulaGraph
