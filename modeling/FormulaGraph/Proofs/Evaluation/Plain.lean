import FormulaGraph.Proofs.Arithmetic
import FormulaGraph.Proofs.Double.Range
import FormulaGraph.Proofs.Evaluation.Moments

/-! How arithmetic can break off. Where values are plain, which those read from a file are and those
computed from them, it does so for a division by zero, for an integer that is too large for a double
or to be written, and where an infinity is rounded up, and in no other case. -/
namespace FormulaGraph

namespace Value

/-- A value that is no operand of its own, and an integer or something with parts only where `known`
says so. -/
def Plain (known : Value → Prop) : Value → Prop
  | operand _ => False
  | int n => known (int n)
  | list items => known (list items)
  | record fields => known (record fields)
  | _ => True

/-- What operand a plain value can stand for. -/
inductive Reading (v : Value) : Except ArithmeticError (Option Operand) → Prop
  | oversized {n : Int} (hv : v = .int n) (hn : Double.ofInt? n = none) : Reading v (.error .overflow)
  | nothing : Reading v (.ok none)
  | day (d : Day) : Reading v (.ok (some (.day d)))
  | number {x : Float} (hnan : x.isNaN = false) (hx : x.isFinite = true ∨ v = .float x) :
    Reading v (.ok (some (.number (.real x))))

variable {known : Value → Prop} {v w : Value} {cause : ArithmeticError}

theorem operand?_int (n : Int) : (int n).operand? = match Double.ofInt? n with
    | some x => .ok (some (.number (.real x)))
    | none => .error .overflow := by
  change (Quantity.whole n).toFloat >>= _ = _
  unfold Quantity.toFloat Quantity.toFloat?
  dsimp only
  cases Double.ofInt? n <;> rfl

theorem reading_operand? (h : v.Plain known) : Reading v v.operand? := by
  have hfinite : ∀ {x : Float}, x.isFinite = true →
      Reading v (.ok (some (.number (.real x)))) := fun hx =>
    .number (Double.not_isNaN_of_isFinite hx) (Or.inl hx)
  cases v with
  | missing => exact .nothing
  | bool b => exact .nothing
  | int n =>
    rw [operand?_int]
    cases hn : Double.ofInt? n with
    | none => exact .oversized rfl hn
    | some x => exact hfinite (Double.isFinite_of_ofInt? hn)
  | float x =>
    change Reading _ (.ok (if x.isNaN = true then none else some (.number (.real x))))
    split
    · exact .nothing
    · rename_i hx
      exact .number (Bool.eq_false_iff.2 hx) (Or.inr rfl)
  | text s =>
    unfold operand?
    dsimp only
    split
    · cases Day.ofText? (Text.trimChars s.toList) with
      | none => exact .nothing
      | some d => exact .day d
    · cases hx : Double.finite? (Text.trimChars s.toList) with
      | none => exact .nothing
      | some x => exact hfinite (Double.isFinite_of_finite? hx)
  | date d => exact .day d
  | moment d clock => exact .day d
  | operand o => exact h.elim
  | list items => exact .nothing
  | record fields => exact .nothing

theorem Plain.of_not_isWritable (h : v.Plain known) (hw : v.isWritable = false) :
    known v ∧ v.isWritable = false := by
  cases v with
  | operand o => exact h.elim
  | int n => exact ⟨h, hw⟩
  | list items => exact ⟨h, hw⟩
  | record fields => exact ⟨h, hw⟩
  | _ => simp [isWritable] at hw

end Value

/-- The ways in which arithmetic on plain values breaks off: a division by zero, an integer that has
no double, or a value that cannot be written. -/
def ArithmeticError.Expected (known : Value → Prop) : ArithmeticError → Prop
  | divisionByZero => True
  | overflow => ∃ n, known (.int n) ∧ Double.ofInt? n = none
  | notANumber => False
  | longInteger => ∃ v, known v ∧ v.isWritable = false

/-- A result that is plain, or an error that is expected. -/
def PlainResult (known : Value → Prop) (P : ArithmeticError → Prop) :
    Except ArithmeticError Value → Prop
  | .ok v => v.Plain known
  | .error cause => P cause

section Arithmetic

variable {known : Value → Prop} {v w : Value}

theorem expected_of_oversized {n : Int} (hv : v.Plain known) (h : v = .int n)
    (hn : Double.ofInt? n = none) : ArithmeticError.Expected known .overflow := by
  subst h
  exact ⟨n, hv, hn⟩

/-- What an operation makes of operands is plain, unless it is a whole number; if it makes nothing of
them, the values are written. -/
theorem plain_of_apply (hv : v.Plain known) (hw : w.Plain known) {op : Option Op}
    {left right made : Option Operand} (hleft : v.operand? = .ok left)
    (hright : w.operand? = .ok right) (h : Operand.apply left op right = .ok made)
    (hwhole : ∀ n, made ≠ some (.number (.whole n))) :
    PlainResult known (ArithmeticError.Expected known) (computeValue v op w) := by
  rw [computeValue_eq hleft hright h]
  cases made with
  | some o =>
    cases o with
    | day d => trivial
    | number q =>
      cases q with
      | whole n => exact absurd rfl (hwhole n)
      | real x => trivial
  | none =>
    dsimp only [Option.elim]
    cases hlong : v.isWritable && w.isWritable with
    | true => trivial
    | false =>
      rcases Bool.and_eq_false_iff.1 hlong with hlong | hlong
      · exact ⟨v, hv.of_not_isWritable hlong⟩
      · exact ⟨w, hw.of_not_isWritable hlong⟩

theorem numeric_real (x y : Float) (op : Option Op) :
    Operand.numeric (.real x) op (.real y) = .error .divisionByZero ∨
      ∃ made, Operand.numeric (.real x) op (.real y) = .ok made := by
  cases op with
  | none => exact Or.inr ⟨none, rfl⟩
  | some op =>
    cases op with
    | div =>
      have hdivide : Operand.numeric (.real x) (some .div) (.real y) =
          if y == 0 then .error .divisionByZero else .ok (some (x / y)) := rfl
      rw [hdivide]
      split
      · exact Or.inl rfl
      · exact Or.inr ⟨_, rfl⟩
    | _ => exact Or.inr ⟨_, rfl⟩

/-- Operands that are no whole numbers make nothing that is one, and break off for a division by zero
only. -/
theorem apply_of_readings {x y : Option Operand} (hx : Value.Reading v (.ok x))
    (hy : Value.Reading w (.ok y)) (op : Option Op) :
    Operand.apply x op y = .error .divisionByZero ∨
      ∃ made, Operand.apply x op y = .ok made ∧ ∀ n, made ≠ some (.number (.whole n)) := by
  cases hx with
  | nothing => exact Or.inr ⟨none, rfl, by simp⟩
  | day d =>
    cases hy with
    | nothing => exact Or.inr ⟨none, rfl, by simp⟩
    | day e =>
      cases op with
      | none => exact Or.inr ⟨none, rfl, by simp⟩
      | some op => cases op <;> exact Or.inr ⟨_, rfl, by simp⟩
    | number => exact Or.inr ⟨_, rfl, by simp⟩
  | @number x =>
    cases hy with
    | nothing => exact Or.inr ⟨none, rfl, by simp⟩
    | day e => exact Or.inr ⟨none, rfl, by simp⟩
    | @number y =>
      dsimp only [Operand.apply]
      rcases numeric_real x y op with h | ⟨made, h⟩ <;> rw [h]
      · exact Or.inl rfl
      · exact Or.inr ⟨_, rfl, by simp⟩

theorem plain_computeValue (hv : v.Plain known) (hw : w.Plain known) (op : Option Op) :
    PlainResult known (ArithmeticError.Expected known) (computeValue v op w) := by
  have hx := Value.reading_operand? hv
  have hy := Value.reading_operand? hw
  cases hleft : v.operand? with
  | error cause =>
    rw [hleft] at hx
    obtain ⟨h, hn⟩ := hx
    rw [computeValue, hleft]
    exact expected_of_oversized hv h hn
  | ok x =>
    cases hright : w.operand? with
    | error cause =>
      rw [hright] at hy
      obtain ⟨h, hn⟩ := hy
      rw [computeValue, hleft, hright]
      exact expected_of_oversized hw h hn
    | ok y =>
      rw [hleft] at hx
      rw [hright] at hy
      rcases apply_of_readings hx hy op with h | ⟨made, h, hwhole⟩
      · rw [computeValue, hleft, hright]
        change PlainResult _ _ (Operand.apply x op y >>= fun _ => _)
        rw [h]
        trivial
      · exact plain_of_apply hv hw hleft hright h hwhole

def Value.Infinite (v : Value) : Prop := ∃ x : Float, v = .float x ∧ x.isInf = true

theorem plain_roundUp (hv : v.Plain known) :
    PlainResult known (fun cause => cause.Expected known ∨ cause = .overflow ∧ v.Infinite)
      (roundUp v) := by
  have hx := Value.reading_operand? hv
  unfold roundUp
  generalize v.operand? = r at hx
  cases hx with
  | oversized h hn => exact Or.inl (expected_of_oversized hv h hn)
  | nothing => trivial
  | day d => trivial
  | @number x hnan hfinite =>
    cases hc : Double.ceiling? x with
    | some n =>
      obtain ⟨y, hy⟩ := Double.exists_ofInt?_of_ceiling? hc
      simp only [bind, Except.bind, hc, Quantity.toFloat, Quantity.toFloat?, hy]
      trivial
    | none =>
      have hinfinite : x.isFinite = false := by
        rw [Bool.eq_false_iff]
        intro h
        obtain ⟨n, hn⟩ := Double.exists_ceiling? h
        rw [hc] at hn
        contradiction
      rw [hinfinite] at hfinite
      simp only [bind, Except.bind, hc, hnan]
      exact Or.inr ⟨rfl, x, by simpa using hfinite, Double.isInf_of_not_isFinite hinfinite hnan⟩

theorem plain_maxOf (hv : v.Plain known) (threshold : Float) :
    PlainResult known (ArithmeticError.Expected known) (maxOf v (.real threshold)) := by
  have hx := Value.reading_operand? hv
  unfold maxOf
  split
  · trivial
  · generalize v.operand? = r at hx
    cases hx with
    | oversized h hn => exact expected_of_oversized hv h hn
    | nothing => trivial
    | day d => trivial
    | @number x =>
      change PlainResult _ _ (if _ then _ else _)
      split
      · trivial
      · exact hv

theorem expected_of_holds {comparison : Comparison} {constant : Float} {cause : ArithmeticError}
    (hv : v.Plain known) (h : Evaluation.holds comparison v constant = .error cause) :
    cause.Expected known := by
  have hx := Value.reading_operand? hv
  unfold Evaluation.holds at h
  generalize v.operand? = r at hx h
  cases hx with
  | oversized hv' hn =>
    obtain rfl := Except.error.inj h
    exact expected_of_oversized hv hv' hn
  | nothing => contradiction
  | day d => contradiction
  | number => contradiction

end Arithmetic

namespace Machine

open Evaluation

/-- A rule that rounds up is about to be applied to an infinity. -/
def Configuration.RoundsInfinity (c : Configuration) : Prop :=
  ∃ rules owner last rule todo, c.control = .proceed rules owner last (rule :: todo) ∧
    Step.ofRule rule = .ok .roundUp ∧ last.Infinite

/-- The errors that a run can end with: of arithmetic only those that are expected, or one on
rounding an infinity; and one on a value that cannot be written. -/
def Excused (known : Value → Prop) (start : Configuration) : EvaluationError → Prop
  | .arithmetic cause => cause.Expected known ∨
      cause = .overflow ∧ ∃ c, Reaches start c ∧ c.RoundsInfinity
  | .longInteger => ∃ v, known v ∧ v.isWritable = false
  | _ => True

def Control.Plain (known : Value → Prop) (start : Configuration) : Control → Prop
  | proceed _ _ last _ => last.Plain known
  | applied _ v => v.Plain known
  | store _ v => v.Plain known
  | done (.ok v) => v.Plain known
  | done (.error e) => Excused known start e
  | _ => True

def Frame.Plain (known : Value → Prop) : Frame → Prop
  | right _ x _ => x.Plain known
  | _ => True

/-- All values of a configuration are plain, and an error it ends with is excused. -/
structure Configuration.Plain (known : Value → Prop) (c start : Configuration) : Prop where
  values : ∀ key v, c.session.values.get? key = some v → v.Plain known
  control : c.control.Plain known start
  waiting : ∀ frame ∈ c.waiting, frame.Plain known

variable {known : Value → Prop} {start c d : Configuration} {s : Session} {waiting : List Frame}

/-- What leaves the values as they are and gives a plain one. -/
def Calm (known : Value → Prop) (start : Configuration) (x : Evaluation Value) (s : Session) : Prop :=
  x.Ensures s (fun v t => t.values = s.values ∧ v.Plain known)
    fun e t => t.values = s.values ∧ Excused known start e

theorem plain_perform {x : Evaluation Value} {next : Value → Control}
    (hs : ∀ key v, s.values.get? key = some v → v.Plain known)
    (hwaiting : ∀ frame ∈ waiting, frame.Plain known) (hx : Calm known start x s)
    (hnext : ∀ v, v.Plain known → (next v).Plain known start) :
    (perform x s next waiting).Plain known start := by
  unfold Calm Ensures at hx
  unfold perform
  generalize (x.run s : Except EvaluationError Value × Session) = r at hx
  rcases r with ⟨e | v, t⟩
  · exact ⟨hx.1 ▸ hs, hx.2, hwaiting⟩
  · exact ⟨hx.1 ▸ hs, hnext v hx.2, hwaiting⟩

theorem calm_ofArithmetic {P : ArithmeticError → Prop} {r : Except ArithmeticError Value}
    (hr : PlainResult known P r) (hP : ∀ cause, P cause → Excused known start (.arithmetic cause)) :
    Calm known start (ofArithmetic r) s := by
  cases r with
  | ok v => exact ⟨rfl, hr⟩
  | error cause => exact ⟨rfl, hP cause hr⟩

theorem excused_of_expected (cause : ArithmeticError) (h : cause.Expected known) :
    Excused known start (.arithmetic cause) := Or.inl h

theorem calm_lookup (hs : ∀ key v, s.values.get? key = some v → v.Plain known) (ref : String)
    (rule last : Value) (rules : Order) (owner : Option String) :
    Calm known start (lookup ref rule last rules owner) s := by
  unfold Calm
  rw [ensures_lookup]
  cases h : s.values.get? (s.namespaces.extend ref) with
  | some v => exact ⟨rfl, hs _ v h⟩
  | none => exact ⟨rfl, trivial⟩

theorem calm_applyStep (hs : ∀ key v, s.values.get? key = some v → v.Plain known)
    (cursor : Cursor) {last : Value} (hlast : last.Plain known) {step : Step}
    (hstep : ∀ left op right, step ≠ .chain left op right)
    (hround : step = .roundUp → last.Infinite → ∃ c, Reaches start c ∧ c.RoundsInfinity) :
    Calm known start (applyStep (fun _ => throw .tooDeep) cursor.rules cursor.owner cursor.rule last
      step) s := by
  cases step with
  | roundUp =>
    refine calm_ofArithmetic (plain_roundUp hlast) ?_
    rintro cause (h | ⟨rfl, h⟩)
    · exact Or.inl h
    · exact Or.inr ⟨rfl, hround rfl h⟩
  | atLeast threshold => exact calm_ofArithmetic (plain_maxOf hlast threshold) excused_of_expected
  | choose ref comparison constant thenValue elseValue =>
    unfold Calm applyStep
    rw [ensures_bind]
    refine (calm_lookup hs ref cursor.rule last cursor.rules cursor.owner).imp ?_ fun _ _ => id
    rintro v t ⟨ht, hv⟩
    rw [ensures_bind]
    cases hb : holds comparison v constant with
    | ok b => exact ⟨ht, trivial⟩
    | error cause => exact ⟨ht, Or.inl (expected_of_holds hv hb)⟩
  | reuse ref => exact calm_lookup hs ref cursor.rule last cursor.rules cursor.owner
  | chain left op right => exact absurd rfl (hstep left op right)

theorem plain_lookUp (hs : ∀ key v, s.values.get? key = some v → v.Plain known)
    (hwaiting : ∀ frame ∈ waiting, frame.Plain known) (identifier : String) :
    (lookUp s identifier waiting).Plain known start := by
  unfold lookUp
  dsimp only
  split
  · rename_i v hv
    exact ⟨hs, hs _ v hv, hwaiting⟩
  split
  · exact ⟨hs, trivial, hwaiting⟩
  split
  · exact ⟨hs, trivial, hwaiting⟩
  · exact ⟨hs, trivial, List.forall_mem_cons.2 ⟨trivial, hwaiting⟩⟩

theorem plain_takeRight (hs : ∀ key v, s.values.get? key = some v → v.Plain known)
    (hwaiting : ∀ frame ∈ waiting, frame.Plain known) (cursor : Cursor) {x : Value}
    (hx : x.Plain known) (op : Op) (right : Term) :
    (takeRight s cursor x op waiting right).Plain known start := by
  cases right with
  | number y =>
    have hy : Value.Plain known (.float y) := trivial
    exact plain_perform hs hwaiting (calm_ofArithmetic
      (plain_computeValue hx hy (some op)) excused_of_expected) fun _ h => h
  | ref name => exact ⟨hs, trivial, List.forall_mem_cons.2 ⟨hx, hwaiting⟩⟩

theorem plain_take (hs : ∀ key v, s.values.get? key = some v → v.Plain known)
    (hwaiting : ∀ frame ∈ waiting, frame.Plain known) (cursor : Cursor) {last : Value}
    (hlast : last.Plain known) (step : Step)
    (hround : step = .roundUp → last.Infinite → ∃ c, Reaches start c ∧ c.RoundsInfinity) :
    (take s cursor last waiting step).Plain known start := by
  cases step with
  | chain left op right =>
    change Configuration.Plain known (if _ then _ else _) start
    split
    · exact ⟨hs, trivial, hwaiting⟩
    · cases left with
      | some ref => exact ⟨hs, trivial, List.forall_mem_cons.2 ⟨trivial, hwaiting⟩⟩
      | none => exact plain_takeRight hs hwaiting cursor hlast op right
  | _ =>
    exact plain_perform hs hwaiting (calm_applyStep hs cursor hlast (by simp) hround) fun _ h => h

theorem plain_keep (hs : ∀ key v, s.values.get? key = some v → v.Plain known)
    (hwaiting : ∀ frame ∈ waiting, frame.Plain known) (key : String) {v : Value}
    (hv : v.Plain known) :
    (perform (keep key v) s (.done <| .ok ·) waiting).Plain known start := by
  have hstored : ∀ name w, (s.store key v).values.get? name = some w → w.Plain known := by
    intro name w hw
    rw [Session.store, Table.get?_insert] at hw
    split at hw
    · rw [← Option.some.inj hw]
      exact hv
    · exact hs name w hw
  have hkeep : (keep key v).Ensures s (fun w t => t = s.store key v ∧ w = v)
      fun e t => t = s.store key v ∧ e = .longInteger ∧ v.isWritable = false := by
    rw [ensures_keep]
    split
    · exact ⟨rfl, rfl⟩
    · rename_i hlong
      exact ⟨rfl, rfl, Bool.not_eq_true _ ▸ hlong⟩
  unfold Ensures at hkeep
  unfold perform
  generalize ((keep key v).run s : Except EvaluationError Value × Session) = r at hkeep
  rcases r with ⟨e | w, t⟩
  · obtain ⟨rfl, rfl, hlong⟩ := hkeep
    exact ⟨hstored, ⟨v, hv.of_not_isWritable hlong⟩, hwaiting⟩
  · obtain ⟨rfl, rfl⟩ := hkeep
    exact ⟨hstored, hv, hwaiting⟩

/-- One step keeps values plain and errors excused. -/
theorem Configuration.Plain.step (h : c.Plain known start) (hc : Reaches start c)
    (hstep : step c = some d) : d.Plain known start := by
  obtain ⟨hs, hcontrol, hwaiting⟩ := h
  cases Transition.of_step hstep with
  | resolve => exact plain_lookUp hs hwaiting _
  | execute =>
    refine plain_perform hs hwaiting ?_ fun _ h => h
    unfold initial
    split <;> exact ⟨rfl, trivial⟩
  | finish => exact ⟨hs, hcontrol, hwaiting⟩
  | malformed => exact plain_perform hs hwaiting ⟨rfl, trivial⟩ fun _ h => h
  | @take s cursor last waiting step hrule =>
    refine plain_take hs hwaiting cursor hcontrol step fun hround hinf => ?_
    exact ⟨_, hc, cursor.rules, cursor.owner, last, cursor.rule, cursor.todo, rfl,
      hround ▸ hrule, hinf⟩
  | accept =>
    refine plain_perform hs hwaiting ?_ fun _ h => h
    unfold accept
    split
    · exact ⟨rfl, trivial⟩
    · exact ⟨rfl, hcontrol⟩
  | store => exact plain_keep hs hwaiting _ hcontrol
  | close => exact ⟨hs, hcontrol, (List.forall_mem_cons.1 hwaiting).2⟩
  | abandon => exact ⟨hs, hcontrol, (List.forall_mem_cons.1 hwaiting).2⟩
  | left => exact plain_takeRight hs (List.forall_mem_cons.1 hwaiting).2 _ hcontrol _ _
  | right =>
    obtain ⟨hframe, hrest⟩ := List.forall_mem_cons.1 hwaiting
    exact plain_perform hs hrest (calm_ofArithmetic
      (plain_computeValue hframe hcontrol _) excused_of_expected) fun _ h => h
  | unwind => exact ⟨hs, hcontrol, (List.forall_mem_cons.1 hwaiting).2⟩

/-- A whole run keeps values plain and errors excused. -/
theorem Configuration.Plain.reaches (h : start.Plain known start) (hd : Reaches start d) :
    d.Plain known start := by
  induction hd with
  | refl => exact h
  | tail hc hstep ih => exact ih.step hc hstep

end Machine

namespace Session

def Plain (known : Value → Prop) (s : Session) : Prop :=
  ∀ key v, s.values.get? key = some v → v.Plain known

open Machine in
theorem Plain.resolve {known : Value → Prop} {s t : Session} (h : s.Plain known) {identifier : String}
    {result : Except EvaluationError Value} (hr : s.resolve identifier = (result, t)) :
    match result with
    | .ok _ => t.Plain known
    | .error e => e = .tooDeep ∨ Excused known ⟨s, .resolve identifier, []⟩ e := by
  have hstart : Configuration.Plain known ⟨s, .resolve identifier, []⟩
      ⟨s, .resolve identifier, []⟩ := ⟨h, trivial, by simp⟩
  have hruns := resolves_resolve s.depth identifier s []
  cases result with
  | ok v => exact (hstart.reaches (hruns.ok_of_run hr)).values
  | error e =>
    rcases hruns.err_of_run hr with hdeep | hreach
    · exact Or.inl hdeep
    · exact Or.inr (hstart.reaches hreach).control

end Session
end FormulaGraph
