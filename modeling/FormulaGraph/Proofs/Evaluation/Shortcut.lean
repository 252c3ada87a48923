import Mathlib.Logic.Relation
import FormulaGraph.Proofs.Dependency.Edges
import FormulaGraph.Proofs.Evaluation.Completion

/-! Two evaluations in step, where the second is given some values that the first has to find. It
need not evaluate those, so it may lack what they depend on until something else resolves it; then it
gets the same value. Only a step that looks such an identifier up makes a difference: it finds
nothing and breaks off. -/
namespace FormulaGraph

variable {s s' t t' : Session}

/-- Resolving `start` only adds values of identifiers that `start` leads to. -/
def Evaluation.spread (extend : String → String) (orders : Table Order) (base : Table Value)
    (start : String) : Protocol where
  keeps s t := s.CompletesTo t ∧ ∀ key ∈ t.values.keys,
    key ∈ s.values.keys ∨ Relation.ReflTransGen (orders.Depends extend) start key
  breaks _ _ _ := True
  refl s := ⟨.refl s, fun _ => Or.inl⟩
  trans h h' := ⟨h.1.trans h'.1, fun key hkey => (h'.2 key hkey).elim (h.2 key) Or.inr⟩
  after _ _ := trivial
  namespaces h := h.1.namespaces
  known h := h.1.get?_mono
  fault _ _ _ := trivial
  arithmetic _ _ := trivial
  ready _ ref s := s.GrownFrom extend orders base ∧
    Relation.ReflTransGen (orders.Depends extend) start (extend ref)
  still h hst := ⟨h.1.growsTo hst.1.toGrowsTo, h.2⟩
  tooDeep _ := trivial
  undefined _ _ _ := trivial
  cyclic _ _ _ _ := trivial
  enter := by
    rintro depth ref s rules ⟨hs, hreach⟩ ho name ⟨rule, hrule, hname⟩
    have horder : orders.get? (extend ref) = some rules := by
      rw [← hs.get?_orders, ← hs.extend_eq, ho.order]
    exact ⟨hs.enter ho, hreach.tail
      ⟨rules, horder, rule, hrule, List.mem_map.2 ⟨name, hname, rfl⟩⟩⟩
  leave := by
    rintro depth ref s rules t v ⟨hs, hreach⟩ ho ⟨hst, hnew⟩ hv hw
    refine ⟨.leave hs.unsettled ho hst hv hw, fun key hkey => ?_⟩
    rcases Table.mem_keys_insert.1 hkey with rfl | hkey
    · rw [hs.extend_eq]
      exact Or.inr hreach
    · exact hnew key hkey
  unwritable _ _ _ _ _ := trivial
  escape _ _ _ := trivial

theorem Session.GrownFrom.ensures_spread {extend : String → String} {orders : Table Order}
    {base : Table Value} (hs : s.GrownFrom extend orders base) (depth : Nat) (ref : String) :
    (Evaluation.resolve depth ref).Ensures s
      (fun v t => (s.CompletesTo t ∧ ∀ key ∈ t.values.keys, key ∈ s.values.keys ∨
        Relation.ReflTransGen (orders.Depends extend) (extend ref) key) ∧ t.known ref = some v)
      fun _ _ => True :=
  (Evaluation.spread extend orders base (extend ref)).ensures_resolve ⟨hs, .refl⟩

/-- What two evaluations begin with, of which the second is given values of `pins` that the first
has found when it ends. -/
structure Shortcut where
  extend : String → String
  orders : Table Order
  /-- The values that the first evaluation begins with, and those that it ends with. -/
  base : Table Value
  final : Table Value
  grows : Grows extend orders [] base final
  /-- The values that the second evaluation begins with. -/
  given : Table Value
  pins : Set String
  base_subset : base ⊆ given
  given_subset : given ⊆ final
  given_or : ∀ key ∈ given.keys, key ∈ base.keys ∨ key ∈ pins

namespace Shortcut

variable {c : Shortcut}

def Beneath (c : Shortcut) (key : String) : Prop :=
  ∃ pin ∈ c.pins, Relation.TransGen (c.orders.Depends c.extend) pin key

/-- The error of looking up too early something that a pin depends on. -/
def Misses (c : Shortcut) (e : EvaluationError) : Prop :=
  e ≠ .tooDeep → e.IsPremature c.orders c.extend fun key =>
    c.given.get? key = none ∧ c.Beneath key

theorem Beneath.of_reflTransGen {key key' : String} (h : c.Beneath key)
    (hpath : Relation.ReflTransGen (c.orders.Depends c.extend) key key') : c.Beneath key' := by
  obtain ⟨pin, hpin, h⟩ := h
  exact ⟨pin, hpin, h.trans_left hpath⟩

/-- Two sessions in step: each has the values of the other, but for what the second one was spared
from evaluating, and for what it was given or has evaluated for another reason. -/
structure InStep (c : Shortcut) (s t : Session) : Prop where
  left : s.GrownFrom c.extend c.orders c.base
  right : t.GrownFrom c.extend c.orders c.given
  inProgress : t.inProgress = s.inProgress
  behind : ∀ key ∈ s.values.keys, key ∈ t.values.keys ∨ c.Beneath key
  ahead : ∀ key ∈ t.values.keys, key ∈ s.values.keys ∨ key ∈ c.pins ∨ c.Beneath key
  writable : s.values.WritableBeyond c.base

namespace InStep

theorem agree (h : c.InStep s t) {key : String} {v w : Value} (hv : s.values.get? key = some v)
    (hw : t.values.get? key = some w) : v = w := by
  have hgiven : ∀ key v w, s.values.get? key = some v → c.given.get? key = some w → v = w :=
    fun key v w hv hw => Grows.get?_unique (c.orders.closedUnder_univ c.extend) (fun _ _ => rfl)
      (fun _ _ => rfl) h.left.values c.grows key (Set.mem_univ _) v w hv (c.given_subset hw)
  have hresumes : c.given.Resumes c.extend c.orders c.base s.values :=
    ⟨h.left.values, c.base_subset, hgiven, h.writable⟩
  exact hresumes.get?_unique h.right.values hv hw

theorem resumes (h : c.InStep s t) : t.values.Resumes c.extend c.orders c.base s.values where
  grows := h.left.values
  subset := fun _ _ hx => h.right.values.get?_mono (c.base_subset hx)
  found := fun _ _ _ => h.agree
  writable := h.writable

theorem grownFrom_self (h : c.InStep s t) : t.GrownFrom c.extend c.orders t.values :=
  ⟨h.right.extend_eq, h.right.get?_orders, .refl, h.right.unsettled⟩

theorem misses (h : c.InStep s t) {e : EvaluationError}
    (he : t.values.Misses c.extend c.orders s.values e) : c.Misses e := fun hne =>
  (he hne).mono fun key ⟨hkey, hnew⟩ =>
    ⟨h.right.values.get?_of_none (Table.get?_eq_none_iff.2 hnew),
      (h.behind key hkey).resolve_left hnew⟩

theorem left_completesTo (h : c.InStep s t) (hs : s.CompletesTo s') (hnew : ∀ key ∈ s'.values.keys,
      key ∈ s.values.keys ∨ key ∈ t.values.keys ∨ c.Beneath key) : c.InStep s' t where
  left := h.left.growsTo hs.toGrowsTo
  right := h.right
  inProgress := h.inProgress.trans hs.inProgress.symm
  behind key hkey := (hnew key hkey).elim (h.behind key) id
  ahead key hkey := (h.ahead key hkey).imp_left hs.mem_keys_mono
  writable := hs.writable.trans h.writable

theorem right_growsTo (h : c.InStep s t) (ht : t.GrowsTo t')
    (hnew : ∀ key ∈ t'.values.keys, key ∈ t.values.keys ∨ c.Beneath key) : c.InStep s t' where
  left := h.left
  right := h.right.growsTo ht
  inProgress := ht.inProgress.trans h.inProgress
  behind key hkey := (h.behind key hkey).imp_left ht.mem_keys_mono
  ahead key hkey := (hnew key hkey).elim (h.ahead key) fun hb => Or.inr (Or.inr hb)
  writable := h.writable

theorem enter (h : c.InStep s t) {ref : String} {rules : Order} (hs : s.Opens ref rules)
    (ht : t.Opens ref rules) : c.InStep (s.enter (c.extend ref)) (t.enter (c.extend ref)) where
  left := h.left.extend_eq ▸ h.left.enter hs
  right := h.right.extend_eq ▸ h.right.enter ht
  inProgress := congrArg (· ++ [c.extend ref]) h.inProgress
  behind := h.behind
  ahead := h.ahead
  writable := h.writable

theorem leave (h : c.InStep s t) {key : String} {v : Value} (hm : c.InStep s' t')
    (hs : s.CompletesTo (s'.leave key v)) (ht : t.GrowsTo (t'.leave key v)) :
    c.InStep (s'.leave key v) (t'.leave key v) where
  left := h.left.growsTo hs.toGrowsTo
  right := h.right.growsTo ht
  inProgress := congrArg List.dropLast hm.inProgress
  behind k hk := by
    rcases Table.mem_keys_insert.1 hk with rfl | hk
    · exact Or.inl (Table.mem_keys_insert.2 (Or.inl rfl))
    · exact (hm.behind k hk).imp_left fun hk => Table.mem_keys_insert.2 (Or.inr hk)
  ahead k hk := by
    rcases Table.mem_keys_insert.1 hk with rfl | hk
    · exact Or.inl (Table.mem_keys_insert.2 (Or.inl rfl))
    · exact (hm.ahead k hk).imp_left fun hk => Table.mem_keys_insert.2 (Or.inr hk)
  writable := hs.writable.trans h.writable

end InStep

open Evaluation

variable {α β : Type}

/-- Whenever `x` gives a value from `s`, `y` gives the same one from `t`, and the sessions are in
step again; or `y` misses what a pin depends on. -/
def Trails (c : Shortcut) (s : Session) (x : Evaluation α) (t : Session) (y : Evaluation α) :
    Prop :=
  x.Ensures s (fun a s' => y.Ensures t (fun b t' => b = a ∧ c.InStep s' t') fun e _ => c.Misses e)
    fun _ _ => True

theorem trails_pure (h : c.InStep s t) (a : α) : c.Trails s (pure a) t (pure a) := ⟨rfl, h⟩

theorem trails_fail (fault : RuleFault) (rule last : Value) (rules : Order)
    (owner : Option String) (y : Evaluation α) :
    c.Trails s (fail fault rule last rules owner) t y := trivial

theorem trails_ofArithmetic (h : c.InStep s t) (x : Except ArithmeticError α) :
    c.Trails s (ofArithmetic x) t (ofArithmetic x) := by
  cases x with
  | error e => trivial
  | ok a => exact trails_pure h a

theorem Trails.bind {x y : Evaluation α} {f g : α → Evaluation β} (h : c.Trails s x t y)
    (hf : ∀ a s' t', c.InStep s' t' → c.Trails s' (f a) t' (g a)) :
    c.Trails s (x >>= f) t (y >>= g) := by
  unfold Trails
  rw [ensures_bind]
  refine Ensures.imp h (fun a s' hy => ?_) fun _ _ _ => trivial
  unfold Ensures at hy
  split at hy
  · rename_i b t' hrun
    obtain ⟨rfl, hm⟩ := hy
    refine Ensures.imp (hf b s' t' hm) (fun d s'' hg => ?_) fun _ _ => id
    rw [ensures_bind, ensures_of_run hrun]
    exact hg
  · rename_i e t' hrun
    refine ensures_of_forall (fun d s'' => ?_) fun _ _ => trivial
    rw [ensures_bind, ensures_of_run_error hrun]
    exact hy

/-- What the first session knows, the second one resolves, perhaps by evaluating it. -/
theorem InStep.ensures_resolve (h : c.InStep s t) (depth : Nat) {ref : String} {v : Value}
    (hv : s.values.get? (c.extend ref) = some v) :
    (resolve depth ref).Ensures t (fun w t' => w = v ∧ c.InStep s t') fun e _ => c.Misses e := by
  cases depth with
  | zero => exact fun he => absurd rfl he
  | succ depth =>
    have hfound : c.extend ref ∈ s.values.keys := Table.mem_keys_iff.2 ⟨v, hv⟩
    cases hw : t.values.get? (c.extend ref) with
    | some w =>
      have hknown : t.known ref = some w := by rw [Session.known, h.right.extend_eq, hw]
      exact ensures_resolve_of_known hknown ⟨(h.agree hv hw).symm, h⟩
    | none =>
      have hbeneath : c.Beneath (c.extend ref) :=
        (h.behind _ hfound).resolve_left (Table.get?_eq_none_iff.1 hw)
      have hbusy : ∀ key ∈ t.inProgress, key ∉ s.values.keys := fun key hkey =>
        Table.get?_eq_none_iff.1 (h.left.unsettled key (h.inProgress ▸ hkey))
      have hresolve := h.resumes.ensures_resolve (depth + 1) h.grownFrom_self hbusy hfound
      refine ((h.right.ensures_spread (depth + 1) ref).and hresolve).imp ?_
        fun e _ he => h.misses he.2
      rintro w t' ⟨⟨⟨ht, hnew⟩, -⟩, hw⟩
      refine ⟨Option.some.inj (hw.symm.trans hv), h.right_growsTo ht.toGrowsTo fun key hkey => ?_⟩
      exact (hnew key hkey).imp_right hbeneath.of_reflTransGen

/-- What the second session knows, the first one may have to evaluate; all that this adds to its
values is beneath a pin, or known to the second one. -/
theorem InStep.ensures_resolve_left (h : c.InStep s t) (depth : Nat) {ref : String} {w : Value}
    (hw : t.values.get? (c.extend ref) = some w) :
    (resolve depth ref).Ensures s (fun v s' => w = v ∧ c.InStep s' t) fun _ _ => True := by
  cases depth with
  | zero => trivial
  | succ depth =>
    cases hv : s.values.get? (c.extend ref) with
    | some v =>
      have hknown : s.known ref = some v := by rw [Session.known, h.left.extend_eq, hv]
      exact ensures_resolve_of_known hknown ⟨(h.agree hv hw).symm, h⟩
    | none =>
      have hmem : c.extend ref ∈ t.values.keys := Table.mem_keys_iff.2 ⟨w, hw⟩
      have hpin : c.extend ref ∈ c.pins ∨ c.Beneath (c.extend ref) :=
        (h.ahead _ hmem).resolve_left (Table.get?_eq_none_iff.1 hv)
      have hreach : ∀ key, Relation.ReflTransGen (c.orders.Depends c.extend) (c.extend ref) key →
          key ∈ t.values.keys ∨ c.Beneath key := by
        intro key hpath
        rcases Relation.reflTransGen_iff_eq_or_transGen.1 hpath with rfl | hpath
        · exact Or.inl hmem
        · rcases hpin with hpin | hbeneath
          · exact Or.inr ⟨_, hpin, hpath⟩
          · exact Or.inr (hbeneath.of_reflTransGen hpath.to_reflTransGen)
      refine (h.left.ensures_spread (depth + 1) ref).imp ?_ fun _ _ _ => trivial
      rintro v s' ⟨⟨hs', hnew⟩, hv⟩
      rw [Session.known, hs'.namespaces, h.left.extend_eq] at hv
      have hm := h.left_completesTo hs' fun key hkey => (hnew key hkey).imp_right (hreach key)
      exact ⟨(hm.agree hv hw).symm, hm⟩

section Rules

variable {rules : Order} {key : String} (ho : c.orders.get? key = some rules)
include ho

theorem trails_lookup (h : c.InStep s t) {rule : Value} (hrule : rule ∈ rules) {ref : String}
    (href : ref ∈ Rule.lookups rule) (last : Value) :
    c.Trails s (lookup ref rule last rules (some key)) t (lookup ref rule last rules (some key)) := by
  unfold Trails
  rw [ensures_lookup, h.left.extend_eq]
  cases hv : s.values.get? (c.extend ref) with
  | none => trivial
  | some v =>
    have hfound : c.extend ref ∈ s.values.keys := Table.mem_keys_iff.2 ⟨v, hv⟩
    have hlook := h.grownFrom_self.finds_lookup h.resumes ho hrule href hfound last t (.refl t)
    have hstay := growth.toFrame.ensures_lookup rules (some key) rule last ref (s := t)
    refine (hstay.and hlook).imp ?_ fun e _ he => h.misses he.2
    rintro w t' ⟨⟨rfl, -⟩, -, hw⟩
    exact ⟨Option.some.inj (hw.symm.trans hv), h⟩

variable {resolve : String → Evaluation Value}
  (hres : ∀ ref s t, c.InStep s t → c.Trails s (resolve ref) t (resolve ref))
include hres

omit ho in
theorem trails_leftValue (h : c.InStep s t) (left : Option String) (last : Value) :
    c.Trails s (leftValue resolve last left) t (leftValue resolve last left) := by
  cases left with
  | none => exact trails_pure h last
  | some ref => exact hres ref s t h

omit ho in
theorem trails_termValue (h : c.InStep s t) (right : Term) :
    c.Trails s (termValue resolve right) t (termValue resolve right) := by
  cases right with
  | number y => exact trails_pure h _
  | ref name => exact hres name s t h

theorem trails_applyStep (h : c.InStep s t) {rule : Value} (hrule : rule ∈ rules) {step : Step}
    (hstep : Step.ofRule rule = .ok step) (last : Value) :
    c.Trails s (applyStep resolve rules (some key) rule last step) t
      (applyStep resolve rules (some key) rule last step) := by
  have hlook : ∀ ref ∈ step.lookups, c.Trails s (lookup ref rule last rules (some key)) t
      (lookup ref rule last rules (some key)) := fun ref href =>
    trails_lookup ho h hrule (by rwa [Rule.lookups_of_ok hstep]) last
  cases step with
  | roundUp => exact trails_ofArithmetic h _
  | atLeast threshold => exact trails_ofArithmetic h _
  | choose ref comparison constant thenValue elseValue =>
    refine (hlook ref (by simp [Step.lookups, Step.references])).bind fun v s' t' hm => ?_
    exact (trails_ofArithmetic hm _).bind fun b s'' t'' hm' => trails_pure hm' _
  | reuse ref => exact hlook ref (by simp [Step.lookups, Step.references])
  | chain left op right =>
    rw [applyStep]
    split
    · exact trails_pure h _
    · refine (trails_leftValue hres h left last).bind fun x s' t' hm => ?_
      refine (trails_termValue hres hm right).bind fun y s'' t'' hm' => ?_
      exact trails_ofArithmetic hm' _

theorem trails_runRule (h : c.InStep s t) {rule : Value} (hrule : rule ∈ rules) (last : Value) :
    c.Trails s (runRule resolve rules (some key) last rule) t
      (runRule resolve rules (some key) last rule) := by
  unfold runRule
  cases hstep : Step.ofRule rule with
  | error cause => exact trails_fail _ _ _ _ _ _
  | ok step =>
    refine (trails_applyStep ho hres h hrule hstep last).bind fun v s' t' hm => ?_
    split
    · exact trails_fail _ _ _ _ _ _
    · exact trails_pure hm v

theorem trails_foldlM (h : c.InStep s t) {todo : Order} (htodo : todo ⊆ rules) (last : Value) :
    c.Trails s (todo.foldlM (runRule resolve rules (some key)) last) t
      (todo.foldlM (runRule resolve rules (some key)) last) := by
  induction todo generalizing s t last with
  | nil => exact trails_pure h last
  | cons rule rest ih =>
    obtain ⟨hrule, hrest⟩ := List.cons_subset.1 htodo
    rw [List.foldlM_cons]
    exact (trails_runRule ho hres h hrule last).bind fun v s' t' hm => ih hm hrest v

theorem trails_execute (h : c.InStep s.count t.count) :
    c.Trails s (execute resolve rules (some key)) t (execute resolve rules (some key)) := by
  have hcount : c.Trails s (modify Session.count) t (modify Session.count) := ⟨rfl, h⟩
  refine hcount.bind fun _ s' t' hm => ?_
  split
  · exact trails_fail _ _ _ _ _ _
  · exact trails_foldlM ho hres hm (List.Subset.refl _) _

end Rules

/-- Identifiers that neither session knows are evaluated by both, in step. -/
theorem InStep.trails_resolve_of_opens (h : c.InStep s t) {depth : Nat} {ref : String}
    {rules : Order} (hs : s.Opens ref rules) (ht : t.Opens ref rules)
    (hres : ∀ ref s t, c.InStep s t → c.Trails s (resolve depth ref) t (resolve depth ref)) :
    c.Trails s (resolve (depth + 1) ref) t (resolve (depth + 1) ref) := by
  have ho : c.orders.get? (c.extend ref) = some rules := by
    rw [← h.left.get?_orders, ← h.left.extend_eq, hs.order]
  have hexecute : c.Trails (s.push (c.extend ref))
      (execute (resolve depth) rules (some (c.extend ref))) (t.push (c.extend ref))
      (execute (resolve depth) rules (some (c.extend ref))) :=
    trails_execute ho hres (h.enter hs ht)
  have hleft := hs.ensures_execute h.left.unsettled depth (some (c.extend ref))
  have hright := ht.ensures_execute h.right.unsettled depth (some (c.extend ref))
  rw [h.left.extend_eq] at hleft
  rw [h.right.extend_eq] at hright
  refine ensures_resolve_of_opens hs ?_
  rw [h.left.extend_eq]
  refine (Ensures.and hexecute hleft).imp ?_ fun _ _ _ => trivial
  rintro v s' ⟨hsecond, hs'⟩
  split
  swap
  · trivial
  rename_i hwritable
  refine ensures_resolve_of_opens ht ?_
  rw [h.right.extend_eq]
  refine (hsecond.and hright).imp ?_ fun e _ he => he.1
  rintro w t' ⟨⟨rfl, hm⟩, ht'⟩
  rw [if_pos hwritable]
  exact ⟨rfl, h.leave hm (hs' hwritable) (ht' hwritable).toGrowsTo⟩

theorem trails_resolve (depth : Nat) (ref : String) (s t : Session) (h : c.InStep s t) :
    c.Trails s (resolve depth ref) t (resolve depth ref) := by
  induction depth generalizing ref s t with
  | zero => trivial
  | succ depth ih =>
    cases hw : t.values.get? (c.extend ref) with
    | some w =>
      have hknown : t.known ref = some w := by rw [Session.known, h.right.extend_eq, hw]
      exact (h.ensures_resolve_left (depth + 1) hw).imp
        (fun v s' hm => ensures_resolve_of_known hknown hm) fun _ _ => id
    | none =>
      cases hv : s.values.get? (c.extend ref) with
      | some v =>
        have hknown : s.known ref = some v := by rw [Session.known, h.left.extend_eq, hv]
        exact ensures_resolve_of_known hknown (h.ensures_resolve (depth + 1) hv)
      | none =>
        have hunknown : s.known ref = none := by rw [Session.known, h.left.extend_eq, hv]
        refine ensures_resolve_of_unknown hunknown (fun _ => trivial) (fun _ _ _ => trivial)
          fun rules hs => ?_
        have ht : t.Opens ref rules := {
          unknown := by rw [Session.known, h.right.extend_eq, hw]
          order := by
            rw [h.right.get?_orders, ← h.left.get?_orders, h.right.extend_eq, ← h.left.extend_eq,
              hs.order]
          idle := by
            rw [h.right.extend_eq, ← h.left.extend_eq, h.inProgress]
            exact hs.idle }
        exact h.trails_resolve_of_opens hs ht ih

end Shortcut
end FormulaGraph
