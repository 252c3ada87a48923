import FormulaGraph.Proofs.Evaluation.Run
import FormulaGraph.Proofs.Evaluation.Zero
import FormulaGraph.Proofs.Rule.RoundTrip
import FormulaGraph.Proofs.Table

/-! Two evaluations in step: where the rules of one are those of the other with their identifiers in
full form, it succeeds whenever the other does, with the same values up to the sign of zeros. -/
namespace FormulaGraph

variable {ns : Namespaces}

/-- Two ways to write one identifier. -/
def Namespaces.SameFull (ns : Namespaces) (ref ref' : String) : Prop :=
  ns.extend ref = ns.extend ref'

theorem Namespaces.sameFull_refl (ns : Namespaces) (ref : String) : ns.SameFull ref ref := rfl

theorem Step.Agrees.refl {E : String → String → Prop} {R : Float → Float → Prop}
    (hE : ∀ ref, E ref ref) (hR : ∀ x, R x x) (s : Step) : s.Agrees E R s := by
  cases s with
  | roundUp => exact .roundUp
  | atLeast x => exact .atLeast (hR x)
  | choose ref comparison x y z => exact .choose (hE ref) comparison (hR x) (hR y) (hR z)
  | reuse ref => exact .reuse (hE ref)
  | chain left op right =>
    refine .chain (rel_refl hE left) op ?_
    cases right with
    | number x => exact .number (hR x)
    | ref name => exact .ref (hE name)

/-- The second rule has the step of the first one, up to how identifiers are written and to the
signs of zeros. -/
def Rule.Follows (ns : Namespaces) (rule rule' : Value) : Prop :=
  ∀ s, Step.ofRule rule = .ok s →
    ∃ t, Step.ofRule rule' = .ok t ∧ s.Agrees ns.SameFull Double.Alike t

/-- Two sessions in step. -/
structure Session.Matches (ns : Namespaces) (s t : Session) : Prop where
  left : s.namespaces = ns
  right : t.namespaces = ns
  inProgress : s.inProgress = t.inProgress
  orders : ∀ key,
    Option.Rel (List.Forall₂ (Rule.Follows ns)) (s.orders.get? key) (t.orders.get? key)
  values : ∀ key, Option.Rel Value.Alike (s.values.get? key) (t.values.get? key)

namespace Session.Matches

variable {s t : Session}

theorem push (h : s.Matches ns t) (key : String) : (s.push key).Matches ns (t.push key) where
  left := h.left
  right := h.right
  inProgress := congrArg (· ++ [key]) h.inProgress
  orders := h.orders
  values := h.values

theorem pop (h : s.Matches ns t) : s.pop.Matches ns t.pop where
  left := h.left
  right := h.right
  inProgress := congrArg List.dropLast h.inProgress
  orders := h.orders
  values := h.values

theorem count (h : s.Matches ns t) : s.count.Matches ns t.count :=
  ⟨h.left, h.right, h.inProgress, h.orders, h.values⟩

theorem store (h : s.Matches ns t) (key : String) {v w : Value} (hvw : v.Alike w) :
    (s.store key v).Matches ns (t.store key w) where
  left := h.left
  right := h.right
  inProgress := h.inProgress
  orders := h.orders
  values other := by
    unfold Session.store
    dsimp only
    rw [Table.get?_insert, Table.get?_insert]
    split
    · exact .some hvw
    · exact h.values other

end Session.Matches

namespace Evaluation

variable {α β γ δ : Type} {R : α → β → Prop} {S : γ → δ → Prop} {s t : Session}
  {x : Evaluation α} {y : Evaluation β} {f : α → Evaluation γ} {g : β → Evaluation δ}

/-- Whenever `x` gives a value from `s`, `y` gives a related one from `t`, and the sessions are in
step again. -/
def Follows (ns : Namespaces) (R : α → β → Prop) (s : Session) (x : Evaluation α) (t : Session)
    (y : Evaluation β) : Prop :=
  x.Ensures s (fun a s' => y.Ensures t (fun b t' => R a b ∧ s'.Matches ns t') fun _ _ => False)
    fun _ _ => True

theorem Follows.bind (h : Follows ns R s x t y)
    (hf : ∀ a b s' t', R a b → s'.Matches ns t' → Follows ns S s' (f a) t' (g b)) :
    Follows ns S s (x >>= f) t (y >>= g) := by
  unfold Follows
  rw [ensures_bind]
  refine Ensures.imp h (fun a s' hy => ?_) fun _ _ _ => trivial
  obtain ⟨b, t', hrun, hab, hm⟩ := hy.exists_run
  refine Ensures.imp (hf a b s' t' hab hm) (fun c s'' hg => ?_) fun _ _ => id
  rw [ensures_bind, ensures_of_run hrun]
  exact hg

theorem follows_pure {a : α} {b : β} (hab : R a b) (hm : s.Matches ns t) :
    Follows ns R s (pure a) t (pure b) := ⟨hab, hm⟩

theorem follows_fail (fault : RuleFault) (rule last : Value) (rules : Order)
    (owner : Option String) (y : Evaluation β) :
    Follows ns R s (fail fault rule last rules owner) t y := trivial

theorem follows_throw (e : EvaluationError) (y : Evaluation β) :
    Follows ns R s (throw e) t y := trivial

theorem follows_get_bind {f : Session → Evaluation γ} {g : Session → Evaluation δ} :
    Follows ns S s (get >>= f) t (get >>= g) ↔ Follows ns S s (f s) t (g t) := by
  unfold Follows
  simp only [ensures_bind, ensures_get]

theorem follows_modify {f g : Session → Session} (hm : (f s).Matches ns (g t)) :
    Follows ns Eq s (modify f) t (modify g) := ⟨rfl, hm⟩

theorem follows_keep {v w : Value} (hvw : v.Alike w) (hm : s.Matches ns t) (key : String) :
    Follows ns Value.Alike s (keep key v) t (keep key w) := by
  unfold Follows
  rw [ensures_keep, ensures_keep, ← hvw.isWritable_eq]
  split
  · exact ⟨hvw, hm.store key hvw⟩
  · trivial

theorem follows_ofArithmetic {T : α → α → Prop} {x y : Except ArithmeticError α}
    (h : Succeeds T x y) (hm : s.Matches ns t) :
    Follows ns T s (ofArithmetic x) t (ofArithmetic y) := by
  cases x with
  | error e => trivial
  | ok a =>
    obtain ⟨b, rfl, hab⟩ := h a rfl
    exact ⟨hab, hm⟩

theorem Follows.within {key : String} (h : Follows ns R (s.push key) x (t.push key) y) :
    Follows ns R s (within key x) t (within key y) := by
  unfold Follows
  rw [ensures_within]
  refine Ensures.imp h (fun a s' hy => ?_) fun _ _ => id
  rw [ensures_within]
  exact Ensures.imp hy (fun b t' hb => ⟨hb.1, hb.2.pop⟩) fun _ _ => id

section Rules

variable (rules rules' : Order) (owner : Option String) (rule rule' : Value) {last last' : Value}

theorem follows_lookup {ref ref' : String} (href : ns.SameFull ref ref') (hm : s.Matches ns t) :
    Follows ns Value.Alike s (lookup ref rule last rules owner) t
      (lookup ref' rule' last' rules' owner) := by
  unfold Follows
  rw [ensures_lookup, hm.left]
  simp only [ensures_lookup, hm.right]
  rw [← href]
  have hv := hm.values (ns.extend ref)
  generalize s.values.get? (ns.extend ref) = v at hv ⊢
  generalize t.values.get? (ns.extend ref) = w at hv ⊢
  cases hv with
  | none => trivial
  | some hvw => exact ⟨hvw, hm⟩

def Resolves (ns : Namespaces) (resolve resolve' : String → Evaluation Value) : Prop :=
  ∀ ref ref', ns.SameFull ref ref' → ∀ s t : Session, s.Matches ns t →
    Follows ns Value.Alike s (resolve ref) t (resolve' ref')

variable {resolve resolve' : String → Evaluation Value}

theorem follows_leftValue (hres : Resolves ns resolve resolve') (hlast : last.Alike last')
    {left left' : Option String} (h : Option.Rel ns.SameFull left left') (hm : s.Matches ns t) :
    Follows ns Value.Alike s (leftValue resolve last left) t (leftValue resolve' last' left') := by
  cases h with
  | none => exact follows_pure hlast hm
  | some href => exact hres _ _ href s t hm

theorem follows_termValue (hres : Resolves ns resolve resolve') {right right' : Term}
    (h : right.Agrees ns.SameFull Double.Alike right') (hm : s.Matches ns t) :
    Follows ns Value.Alike s (termValue resolve right) t (termValue resolve' right') := by
  cases h with
  | number hy => exact follows_pure (Value.alike_float hy) hm
  | ref hname => exact hres _ _ hname s t hm

theorem follows_applyStep (hres : Resolves ns resolve resolve') (hlast : last.Alike last')
    {step step' : Step} (h : step.Agrees ns.SameFull Double.Alike step') (hm : s.Matches ns t) :
    Follows ns Value.Alike s (applyStep resolve rules owner rule last step) t
      (applyStep resolve' rules' owner rule' last' step') := by
  cases h with
  | roundUp => exact follows_ofArithmetic (roundUp_alike hlast) hm
  | atLeast hx => exact follows_ofArithmetic (maxOf_alike hlast (.real hx)) hm
  | choose href comparison hx hy hz =>
    refine (follows_lookup _ _ _ _ _ href hm).bind fun v v' s' t' hv hm' => ?_
    refine (follows_ofArithmetic (holds_alike hv hx comparison) hm').bind ?_
    rintro b b' s'' t'' rfl hm''
    cases b with
    | true => exact follows_pure (Value.alike_float hy) hm''
    | false => exact follows_pure (Value.alike_float hz) hm''
  | reuse href => exact follows_lookup _ _ _ _ _ href hm
  | @chain left left' hleft op right right' hright =>
    have hsome : left'.isSome = left.isSome := by cases hleft <;> rfl
    have hcond : (left'.isSome != isAbsent last') = (left.isSome != isAbsent last) := by
      rw [hsome, isAbsent_alike hlast]
    rw [applyStep, applyStep, hcond]
    by_cases hc : (left.isSome != isAbsent last) = true
    · rw [if_pos hc, if_pos hc]
      exact follows_pure (.refl _) hm
    · rw [if_neg hc, if_neg hc]
      refine (follows_leftValue hres hlast hleft hm).bind fun v v' s' t' hv hm' => ?_
      refine (follows_termValue hres hright hm').bind fun w w' s'' t'' hw hm'' => ?_
      exact follows_ofArithmetic (computeValue_alike hv hw (some op)) hm''

theorem follows_runRule (hres : Resolves ns resolve resolve') (hlast : last.Alike last')
    (h : Rule.Follows ns rule rule') (hm : s.Matches ns t) :
    Follows ns Value.Alike s (runRule resolve rules owner last rule) t
      (runRule resolve' rules' owner last' rule') := by
  unfold runRule
  cases hs : Step.ofRule rule with
  | error cause => exact follows_fail _ _ _ _ _ _
  | ok step =>
    obtain ⟨step', hs', hagree⟩ := h step hs
    rw [hs']
    dsimp only
    refine (follows_applyStep rules rules' owner rule rule' hres hlast hagree hm).bind ?_
    intro v v' s' t' hv hm'
    rw [isAbsent_alike hv]
    split
    · exact follows_fail _ _ _ _ _ _
    · exact follows_pure hv hm'

theorem follows_foldlM (hres : Resolves ns resolve resolve') {todo todo' : Order}
    (h : List.Forall₂ (Rule.Follows ns) todo todo') (hlast : last.Alike last')
    (hm : s.Matches ns t) :
    Follows ns Value.Alike s (todo.foldlM (runRule resolve rules owner) last) t
      (todo'.foldlM (runRule resolve' rules' owner) last') := by
  induction h generalizing s t last last' with
  | nil => exact follows_pure hlast hm
  | @cons rule rule' todo todo' hrule _ ih =>
    rw [List.foldlM_cons, List.foldlM_cons]
    exact (follows_runRule rules rules' owner rule rule' hres hlast hrule hm).bind
      fun v v' s' t' hv hm' => ih hv hm'

theorem follows_execute (hres : Resolves ns resolve resolve')
    (h : List.Forall₂ (Rule.Follows ns) rules rules') (hm : s.Matches ns t) :
    Follows ns Value.Alike s (execute resolve rules owner) t (execute resolve' rules' owner) := by
  refine (follows_modify hm.count).bind fun _ _ s' t' _ hm' => ?_
  cases h with
  | nil => exact follows_fail _ _ _ _ _ _
  | cons hrule hrest => exact follows_foldlM _ _ _ hres (.cons hrule hrest) (.refl _) hm'

end Rules

theorem resolves_resolve (depth : Nat) : Resolves ns (resolve depth) (resolve depth) := by
  induction depth with
  | zero => exact fun _ _ _ _ _ _ => trivial
  | succ depth ih =>
    intro ref ref' href s t hm
    have hkey : ns.extend ref' = ns.extend ref := Eq.symm href
    rw [resolve, resolve, follows_get_bind]
    dsimp only
    rw [hm.left, hm.right, hkey]
    generalize ns.extend ref = key
    have hv := hm.values key
    generalize s.values.get? key = v at hv ⊢
    generalize t.values.get? key = w at hv ⊢
    cases hv with
    | some hvw => exact follows_pure hvw hm
    | none =>
      dsimp only
      have ho := hm.orders key
      generalize s.orders.get? key = rules at ho ⊢
      generalize t.orders.get? key = rules' at ho ⊢
      cases ho with
      | none => exact follows_throw _ _
      | @some rules rules' hrules =>
        dsimp only
        rw [hm.inProgress]
        by_cases hc : t.inProgress.contains key = true
        · rw [if_pos hc, if_pos hc]
          exact follows_throw _ _
        · rw [if_neg hc, if_neg hc]
          have hexec := follows_execute rules rules' (some key) ih hrules (hm.push key)
          exact hexec.within.bind fun v v' s' t' hvv hm' => follows_keep hvv hm' key

end Evaluation
end FormulaGraph
