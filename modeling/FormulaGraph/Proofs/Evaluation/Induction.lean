import FormulaGraph.Proofs.Evaluation.Reading
import FormulaGraph.Proofs.Evaluation.Run
import FormulaGraph.Proofs.Table

/-! One induction for what evaluations keep. A `Frame` says how the sessions before and after a
part of an evaluation are related, a `Protocol` also what opening and closing an identifier means
for that relation; every evaluation then stays within it, and the value it gives is the one that
can be read off the session it ends with. -/
namespace FormulaGraph

namespace Session

def known (s : Session) (ref : String) : Option Value := s.values.get? (s.namespaces.extend ref)

/-- The session in which the order of `key` begins. -/
def enter (s : Session) (key : String) : Session := (s.push key).count

/-- The session in which the order of `key` has ended with the value `v`. -/
def leave (s : Session) (key : String) (v : Value) : Session := s.pop.store key v

structure Opens (s : Session) (identifier : String) (rules : Order) : Prop where
  unknown : s.known identifier = none
  order : s.orders.get? (s.namespaces.extend identifier) = some rules
  idle : s.namespaces.extend identifier ∉ s.inProgress

end Session

/-- The identifiers that an order resolves. -/
def Order.Resolves (rules : Order) (ref : String) : Prop :=
  ∃ rule ∈ rules, ref ∈ DependencyGraph.ruleDependencies rule

namespace Evaluation

/-- How a session is related to the one after some evaluation that went on, or broke off. -/
structure Frame where
  keeps : Session → Session → Prop
  breaks : EvaluationError → Session → Session → Prop
  refl (s) : keeps s s
  trans {s t u} : keeps s t → keeps t u → keeps s u
  after {s t u e} : keeps s t → breaks e t u → breaks e s u
  namespaces {s t} : keeps s t → t.namespaces = s.namespaces
  known {s t} : keeps s t → ∀ {key v}, s.values.get? key = some v → t.values.get? key = some v
  fault (fault context s) : breaks (.invalidRule fault context) s s
  arithmetic (cause s) : breaks (.arithmetic cause) s s

variable {resolve : String → Evaluation Value} {s : Session}

namespace Frame

variable (F : Frame)

/-- `resolve` stays within the frame for an identifier, wherever an evaluation from `s` has led. -/
def Admits (resolve : String → Evaluation Value) (s : Session) (ref : String) : Prop :=
  ∀ t, F.keeps s t →
    (resolve ref).Ensures t (fun v u => F.keeps t u ∧ u.known ref = some v) (F.breaks · t ·)

variable {F}

theorem Admits.of_keeps {ref : String} {t : Session} (h : F.Admits resolve s ref)
    (ht : F.keeps s t) : F.Admits resolve t ref := fun u hu => h u (F.trans ht hu)

theorem known_of_keeps {t : Session} (h : F.keeps s t) {ref : String} {v : Value}
    (hv : s.known ref = some v) : t.known ref = some v := by
  unfold Session.known at hv ⊢
  rw [F.namespaces h]
  exact F.known h hv

theorem ensures_ofArithmetic {x : Except ArithmeticError Value} {ok : Value → Session → Prop}
    (h : ∀ v, x.toOption = some v → ok v s) : (ofArithmetic x).Ensures s ok (F.breaks · s ·) := by
  cases x with
  | ok v => exact h v rfl
  | error e => exact F.arithmetic e s

variable (rules : Order) (owner : Option String) (rule last : Value)

theorem ensures_lookup (ref : String) : (lookup ref rule last rules owner).Ensures s
    (fun v t => t = s ∧ s.known ref = some v) (F.breaks · s ·) := by
  rw [Evaluation.ensures_lookup]
  cases h : s.values.get? (s.namespaces.extend ref) with
  | none => exact F.fault _ _ _
  | some v => exact ⟨rfl, h⟩

theorem ensures_termValue (right : Term)
    (h : ∀ name, right = .ref name → F.Admits resolve s name) :
    (termValue resolve right).Ensures s
      (fun v t => F.keeps s t ∧ right.value? t.known = some v) (F.breaks · s ·) := by
  cases right with
  | number y => exact ⟨F.refl s, rfl⟩
  | ref name => exact h name rfl s (F.refl s)

theorem ensures_leftValue (left : Option String)
    (h : ∀ ref, left = some ref → F.Admits resolve s ref) :
    (leftValue resolve last left).Ensures s
      (fun v t => F.keeps s t ∧ left.elim (some last) t.known = some v) (F.breaks · s ·) := by
  cases left with
  | none => exact ⟨F.refl s, rfl⟩
  | some ref => exact h ref rfl s (F.refl s)

theorem ensures_applyStep (step : Step)
    (hres : ∀ ref ∈ step.dependencies, F.Admits resolve s ref) :
    (applyStep resolve rules owner rule last step).Ensures s
      (fun v t => F.keeps s t ∧ (isAbsent v = false → step.value? t.known last = some v))
      (F.breaks · s ·) := by
  cases step with
  | roundUp => exact ensures_ofArithmetic fun v hv => ⟨F.refl s, fun _ => hv⟩
  | atLeast threshold => exact ensures_ofArithmetic fun v hv => ⟨F.refl s, fun _ => hv⟩
  | choose ref comparison constant thenValue elseValue =>
    rw [applyStep, ensures_bind]
    refine (ensures_lookup rules owner rule last ref).imp ?_ fun _ _ => id
    rintro v t ⟨rfl, hv⟩
    rw [ensures_bind]
    cases hb : holds comparison v constant with
    | error e => exact F.arithmetic e t
    | ok b =>
      refine ⟨F.refl t, fun _ => ?_⟩
      simp [Step.value?, hv, hb, Except.toOption]
  | reuse ref =>
    refine (ensures_lookup rules owner rule last ref).imp ?_ fun _ _ => id
    rintro v t ⟨rfl, hv⟩
    exact ⟨F.refl t, fun _ => hv⟩
  | chain left op right =>
    have hl : ∀ ref, left = some ref → F.Admits resolve s ref := fun ref h =>
      hres ref (by simp [Step.dependencies, Step.references, h])
    have hr : ∀ name, right = .ref name → F.Admits resolve s name := fun name h =>
      hres name (by simp [Step.dependencies, Step.references, h, Term.ref?])
    rw [applyStep]
    by_cases hc : (left.isSome != isAbsent last) = true
    · rw [if_pos hc]
      exact ⟨F.refl s, fun h => by simp [isAbsent] at h⟩
    rw [if_neg hc, ensures_bind]
    refine (ensures_leftValue last left hl).imp ?_ fun _ _ => id
    rintro x t ⟨hst, hx⟩
    rw [ensures_bind]
    refine (ensures_termValue right fun name h => (hr name h).of_keeps hst).imp ?_
      fun e u hu => F.after hst hu
    rintro y u ⟨htu, hy⟩
    have hx' : left.elim (some last) u.known = some x := by
      cases left with
      | none => exact hx
      | some ref => exact known_of_keeps htu hx
    have hsu := F.trans hst htu
    have hresult : (ofArithmetic (computeValue x (some op) y)).Ensures u
        (fun v w => w = u ∧ (computeValue x (some op) y).toOption = some v) (F.breaks · u ·) :=
      ensures_ofArithmetic fun v hv => ⟨rfl, hv⟩
    refine hresult.imp ?_ fun e w hw => F.after hsu hw
    rintro v w ⟨rfl, hv⟩
    refine ⟨hsu, fun _ => ?_⟩
    rw [Step.value?, if_neg hc, hx', hy]
    exact hv

theorem ensures_runRule
    (hres : ∀ ref ∈ DependencyGraph.ruleDependencies rule, F.Admits resolve s ref) :
    (runRule resolve rules owner last rule).Ensures s
      (fun v t => F.keeps s t ∧ Rule.value? t.known last rule = some v) (F.breaks · s ·) := by
  unfold runRule
  cases hs : Step.ofRule rule with
  | error cause => exact F.fault _ _ _
  | ok step =>
    rw [ensures_bind]
    have hres' : ∀ ref ∈ step.dependencies, F.Admits resolve s ref := by
      simpa only [DependencyGraph.ruleDependencies, hs] using hres
    refine (ensures_applyStep rules owner rule last step hres').imp ?_ fun _ _ => id
    rintro v t ⟨hst, hv⟩
    cases ha : isAbsent v with
    | true => exact F.after hst (F.fault _ _ _)
    | false => exact ⟨hst, Rule.value?_eq_some_iff.2 ⟨step, hs, hv ha, ha⟩⟩

theorem ensures_foldlM (todo : Order) (hres : ∀ ref, todo.Resolves ref → F.Admits resolve s ref) :
    (todo.foldlM (runRule resolve rules owner) last).Ensures s
      (fun v t => F.keeps s t ∧ todo.foldlM (Rule.value? t.known) last = some v)
      (F.breaks · s ·) := by
  induction todo generalizing s last with
  | nil => exact ⟨F.refl s, rfl⟩
  | cons rule rest ih =>
    rw [List.foldlM_cons, ensures_bind]
    have hrule := ensures_runRule rules owner rule last fun ref href =>
      hres ref ⟨rule, by simp, href⟩
    refine hrule.imp ?_ fun _ _ => id
    rintro v t ⟨hst, hv⟩
    have hrest : ∀ ref, Order.Resolves rest ref → F.Admits resolve t ref := by
      rintro ref ⟨r, hr, href⟩
      exact (hres ref ⟨r, by simp [hr], href⟩).of_keeps hst
    refine (ih v hrest).imp ?_ fun e u hu => F.after hst hu
    rintro w u ⟨htu, hw⟩
    refine ⟨F.trans hst htu, ?_⟩
    rw [List.foldlM_cons]
    exact Option.bind_eq_some_iff.2
      ⟨v, Rule.value?_mono hv fun ref _ x hx => known_of_keeps htu hx, hw⟩

/-- An order stays within the frame, and its value can be read off the session it ends with. -/
theorem ensures_execute (hres : ∀ ref, rules.Resolves ref → F.Admits resolve s.count ref) :
    (execute resolve rules owner).Ensures s
      (fun v t => F.keeps s.count t ∧ Order.value? t.known rules = some v)
      (F.breaks · s.count ·) := by
  unfold execute
  rw [ensures_bind, ensures_modify]
  by_cases he : rules.isEmpty = true
  · rw [if_pos he]
    exact F.fault _ _ _
  · rw [if_neg he]
    refine (ensures_foldlM rules owner .missing rules hres).imp ?_ fun _ _ => id
    rintro v t ⟨hst, hv⟩
    exact ⟨hst, Order.value?_eq_some_iff.2 ⟨by simpa using he, hv⟩⟩

end Frame

/-- A frame, and what must hold to resolve an identifier with evaluations nested less than some
depth deep. Opening an identifier makes the identifiers of its order ready, and closing it again
stays within the frame. -/
structure Protocol extends Frame where
  ready : Nat → String → Session → Prop
  still {depth ref s t} : ready depth ref s → keeps s t → ready depth ref t
  tooDeep {ref s} : ready 0 ref s → breaks .tooDeep s s
  undefined {depth ref s} : ready (depth + 1) ref s → s.known ref = none →
    s.orders.get? (s.namespaces.extend ref) = none →
    breaks (.undefinedOrder (s.namespaces.extend ref) s.orders) s s
  cyclic {depth ref s rules} : ready (depth + 1) ref s → s.known ref = none →
    s.orders.get? (s.namespaces.extend ref) = some rules →
    s.namespaces.extend ref ∈ s.inProgress →
    breaks (.cyclic (s.cycleAt (s.namespaces.extend ref))) s s
  enter {depth ref s rules} : ready (depth + 1) ref s → s.Opens ref rules →
    ∀ name, rules.Resolves name → ready depth name (s.enter (s.namespaces.extend ref))
  leave {depth ref s rules t v} : ready (depth + 1) ref s → s.Opens ref rules →
    keeps (s.enter (s.namespaces.extend ref)) t → rules.value? t.known = some v →
    v.isWritable = true → keeps s (t.leave (s.namespaces.extend ref) v)
  unwritable {depth ref s rules t v} : ready (depth + 1) ref s → s.Opens ref rules →
    keeps (s.enter (s.namespaces.extend ref)) t → rules.value? t.known = some v →
    v.isWritable = false → breaks .longInteger s (t.leave (s.namespaces.extend ref) v)
  escape {depth ref s rules t e} : ready (depth + 1) ref s → s.Opens ref rules →
    breaks e (s.enter (s.namespaces.extend ref)) t → breaks e s t.pop

variable {ok : Value → Session → Prop} {err : EvaluationError → Session → Prop}

theorem ensures_resolve_of_known {depth : Nat} {ref : String} {v : Value}
    (h : s.known ref = some v) (hok : ok v s) :
    (Evaluation.resolve (depth + 1) ref).Ensures s ok err := by
  unfold Session.known at h
  rw [Evaluation.resolve, ensures_bind, ensures_get]
  dsimp only
  rw [h]
  exact hok

theorem ensures_resolve_of_opens {depth : Nat} {ref : String} {rules : Order}
    (h : s.Opens ref rules)
    (hrun : (execute (Evaluation.resolve depth) rules (some (s.namespaces.extend ref))).Ensures
      (s.push (s.namespaces.extend ref))
      (fun v t => if v.isWritable = true then ok v (t.leave (s.namespaces.extend ref) v)
        else err .longInteger (t.leave (s.namespaces.extend ref) v))
      (fun e t => err e t.pop)) :
    (Evaluation.resolve (depth + 1) ref).Ensures s ok err := by
  have hv : s.values.get? (s.namespaces.extend ref) = none := h.unknown
  have hc : ¬ s.inProgress.contains (s.namespaces.extend ref) = true := by simpa using h.idle
  rw [Evaluation.resolve, ensures_bind, ensures_get]
  dsimp only
  rw [hv, h.order]
  dsimp only
  rw [if_neg hc, ensures_bind, ensures_within]
  simp only [ensures_keep]
  exact hrun

/-- An identifier without a value opens unless it has no order or is under evaluation already. -/
theorem ensures_resolve_of_unknown {depth : Nat} {ref : String} (hv : s.known ref = none)
    (hundefined : s.orders.get? (s.namespaces.extend ref) = none →
      err (.undefinedOrder (s.namespaces.extend ref) s.orders) s)
    (hcyclic : ∀ rules, s.orders.get? (s.namespaces.extend ref) = some rules →
      s.namespaces.extend ref ∈ s.inProgress →
      err (.cyclic (s.cycleAt (s.namespaces.extend ref))) s)
    (hopens : ∀ rules, s.Opens ref rules →
      (Evaluation.resolve (depth + 1) ref).Ensures s ok err) :
    (Evaluation.resolve (depth + 1) ref).Ensures s ok err := by
  cases ho : s.orders.get? (s.namespaces.extend ref) with
  | none =>
    have herr := hundefined ho
    unfold Session.known at hv
    rw [Evaluation.resolve, ensures_bind, ensures_get]
    dsimp only
    rw [hv, ho]
    exact herr
  | some rules =>
    by_cases hc : s.namespaces.extend ref ∈ s.inProgress
    · have herr := hcyclic rules ho hc
      unfold Session.known at hv
      rw [Evaluation.resolve, ensures_bind, ensures_get]
      dsimp only
      rw [hv, ho]
      dsimp only
      rw [if_pos (by simpa using hc)]
      exact herr
    · exact hopens rules ⟨hv, ho, hc⟩

/-- Resolving an identifier that is ready stays within the protocol and makes it known. -/
theorem Protocol.ensures_resolve (P : Protocol) {depth : Nat} {ref : String} {s : Session}
    (h : P.ready depth ref s) :
    (Evaluation.resolve depth ref).Ensures s (fun v t => P.keeps s t ∧ t.known ref = some v)
      (P.breaks · s ·) := by
  induction depth generalizing ref s with
  | zero => exact P.tooDeep h
  | succ depth ih =>
    cases hv : s.known ref with
    | some v => exact ensures_resolve_of_known hv ⟨P.refl s, hv⟩
    | none =>
      refine ensures_resolve_of_unknown hv (P.undefined h hv) (fun _ => P.cyclic h hv)
        fun rules hopens => ?_
      have hadmits : ∀ name, rules.Resolves name → P.toFrame.Admits
          (Evaluation.resolve depth) (s.enter (s.namespaces.extend ref)) name :=
        fun name hname t ht => ih (P.still (P.enter h hopens name hname) ht)
      refine ensures_resolve_of_opens hopens ?_
      refine (Frame.ensures_execute rules _ hadmits).imp ?_ fun e t ht => P.escape h hopens ht
      rintro v t ⟨hst, hval⟩
      split
      · rename_i hwritable
        have hleave := P.leave h hopens hst hval hwritable
        refine ⟨hleave, ?_⟩
        rw [Session.known, P.namespaces hleave]
        exact Table.get?_insert_self _ _ _
      · rename_i hlong
        exact P.unwritable h hopens hst hval (Bool.not_eq_true _ ▸ hlong)

end Evaluation
end FormulaGraph
