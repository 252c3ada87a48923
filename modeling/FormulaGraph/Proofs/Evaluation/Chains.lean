import FormulaGraph.Proofs.Arithmetic
import FormulaGraph.Proofs.Evaluation.Completion
import FormulaGraph.Proofs.Evaluation.Growth

/-! Chains of arithmetic steps. The value of a chain goes from each step to the next in its raw
form; here it is compared with the chain that keeps the operand. The two agree for as long as no
value on the way is NaN or a day before the year 1000; where one is, the chain has no value. -/
namespace FormulaGraph

open Evaluation

/-- The operand a value stands for; none as well where it is an integer too large for a double. -/
def Value.asOperand? (v : Value) : Option Operand := v.operand?.toOption.join

namespace Operand

/-- An operand whose raw form is read back as that operand. -/
def Survives (o : Operand) : Prop := ¬ o.IsEarly ∧ ¬ o.IsNaN

instance (o : Operand) : Decidable o.Survives := inferInstanceAs (Decidable (_ ∧ _))

def combine? (left : Option Operand) (op : Op) (right : Option Operand) : Option Operand :=
  (apply left (some op) right).toOption.join

def isWritten (text : String) : Operand → Bool
  | day d => d.text == text
  | number _ => false

theorem exists_day {result : Option Operand} {text : String}
    (h : result.any (isWritten text) = true) : ∃ d, result = some (day d) ∧ d.text = text := by
  obtain ⟨o, rfl, ho⟩ := (Option.any_eq_true _ _).1 h
  cases o with
  | day d => exact ⟨d, rfl, beq_iff_eq.1 ho⟩
  | number q => contradiction

end Operand

variable {read : String → Option Value}

/-- What an arithmetic step makes of the current operand; no other step makes anything of it. -/
def Step.onOperands? (read : String → Option Value) (last : Option Operand) : Step → Option Operand
  | .chain left op right =>
    if left.isSome = last.isSome then none
    else do
      let x ← left.elim (some last) fun ref => (read ref).map Value.asOperand?
      let y ← right.value? read
      Operand.combine? x op y.asOperand?
  | _ => none

def Rule.onOperands? (read : String → Option Value) (last : Option Operand) (rule : Value) :
    Option Operand :=
  match Step.ofRule rule with
  | .ok step => step.onOperands? read last
  | .error _ => none

/-- What the rules of a chain make of the current operand. -/
def Order.onOperandsFrom? (read : String → Option Value) (last : Option Operand) :
    Order → Option Operand
  | [] => last
  | rule :: rest => do onOperandsFrom? read (some (← Rule.onOperands? read last rule)) rest

def Order.onOperands? (read : String → Option Value) (rules : Order) : Option Operand :=
  rules.onOperandsFrom? read none

/-- Every operand that a later rule takes up survives its raw form. -/
def Order.Survives (read : String → Option Value) (last : Option Operand) (rules : Order) : Prop :=
  ∀ before after o, rules = before ++ after → after ≠ [] →
    before.onOperandsFrom? read last = some o → o.Survives

def Step.IsArithmetic : Step → Prop
  | .chain _ _ _ => True
  | _ => False

def Order.IsChain (rules : Order) : Prop :=
  ∀ rule ∈ rules, ∃ step, Step.ofRule rule = .ok step ∧ step.IsArithmetic

/-- The current value is the raw form of the current operand. -/
inductive Carries : Value → Option Operand → Prop where
  | missing : Carries .missing none
  | raw {v : Value} {o : Operand} (result : o.IsResult) (toValue : o.toValue = .ok v) :
    Carries v (some o)

theorem Operand.IsResult.isAbsent_eq {o : Operand} (h : o.IsResult) {v : Value}
    (hv : o.toValue = .ok v) : isAbsent v = false := by
  cases h <;> cases Except.ok.inj hv <;> rfl

theorem Carries.isAbsent_eq {v : Value} {last : Option Operand} (h : Carries v last) :
    isAbsent v = !last.isSome := by
  cases h with
  | missing => rfl
  | raw result toValue => exact result.isAbsent_eq toValue

/-- The current value stands for the current operand if that survives, and else for none. -/
theorem Carries.operand?_eq {v : Value} {last : Option Operand} (h : Carries v last) :
    v.operand? = .ok (last.filter fun o => decide o.Survives) := by
  cases h with
  | missing => rfl
  | @raw v o result toValue =>
    obtain ⟨r, hr, -, hread⟩ := result.toValue_eq
    obtain rfl : r = v := Except.ok.inj (hr.symm.trans toValue)
    rw [hread, Option.filter_some]
    by_cases hs : o.Survives
    · rw [if_neg (by rintro (h | h); exacts [hs.1 h, hs.2 h]), if_pos (by simpa using hs)]
    · rw [if_pos (by by_contra hno; exact hs ⟨fun h => hno (.inl h), fun h => hno (.inr h)⟩),
        if_neg (by simpa using hs)]

theorem computeValue_filter (v w : Value) (op : Op) :
    (computeValue v (some op) w).toOption.filter (!isAbsent ·) =
      (Operand.combine? v.asOperand? op w.asOperand?).bind Operand.raw? := by
  unfold computeValue Operand.combine? Value.asOperand?
  cases hv : v.operand? with
  | error e => simp [Except.toOption, Operand.apply_none_left, bind, Except.bind]
  | ok left =>
    cases hw : w.operand? with
    | error e => simp [Except.toOption, Operand.apply_none_right, bind, Except.bind]
    | ok right =>
      have hjoin : ∀ o : Option Operand,
          (Except.ok o : Except ArithmeticError _).toOption.join = o := fun _ => rfl
      rw [hjoin, hjoin]
      change (Operand.apply left (some op) right >>= fun _ => _).toOption.filter _ = _
      cases ha : Operand.apply left (some op) right with
      | error e => rfl
      | ok result =>
        cases result with
        | none =>
          change (if _ then Except.ok Value.missing else .error _).toOption.filter _ = none
          split <;> rfl
        | some o =>
          have hresult := Operand.isResult_of_apply ha
          obtain ⟨r, hr, -⟩ := hresult.toValue_eq
          change o.toValue.toOption.filter _ = o.toValue.toOption
          rw [hr, Except.toOption, Option.filter_some, hresult.isAbsent_eq hr]
          rfl

theorem combine?_isResult {left right : Option Operand} {op : Op} {o : Operand}
    (h : Operand.combine? left op right = some o) : o.IsResult := by
  unfold Operand.combine? at h
  cases ha : Operand.apply left (some op) right with
  | error e => rw [ha] at h; contradiction
  | ok result =>
    rw [ha] at h
    obtain rfl : result = some o := h
    exact Operand.isResult_of_apply ha

theorem Carries.asOperand?_eq {v : Value} {last : Option Operand} (h : Carries v last)
    (hlast : ∀ o, last = some o → o.Survives) : v.asOperand? = last := by
  rw [Value.asOperand?, h.operand?_eq]
  cases last with
  | none => rfl
  | some o => simp [Except.toOption, hlast o rfl]

/-- A step on a value whose operand survives gives the raw form of the step on that operand. -/
theorem Step.value?_filter {step : Step} (hs : step.IsArithmetic) {v : Value}
    {last : Option Operand} (h : Carries v last) (hlast : ∀ o, last = some o → o.Survives) :
    (step.value? read v).filter (!isAbsent ·) = (step.onOperands? read last).bind Operand.raw? := by
  cases step with
  | chain left op right =>
    have habsent : (left.isSome != isAbsent v) = decide (left.isSome = last.isSome) := by
      rw [h.isAbsent_eq]
      cases left.isSome <;> cases last.isSome <;> rfl
    rw [Step.value?, Step.onOperands?, habsent]
    by_cases hc : left.isSome = last.isSome
    · rw [if_pos (by simpa using hc), if_pos hc]
      rfl
    · rw [if_neg (by simpa using hc), if_neg hc]
      have hleft : left.elim (some last) (fun ref => (read ref).map Value.asOperand?) =
          (left.elim (some v) read).map Value.asOperand? := by
        cases left with
        | none => rw [Option.elim_none, Option.elim_none, Option.map_some, h.asOperand?_eq hlast]
        | some ref => rfl
      rw [hleft]
      cases left.elim (some v) read with
      | none => rfl
      | some x =>
        cases right.value? read with
        | none => rfl
        | some y => exact computeValue_filter x y op
  | _ => contradiction

/-- A step on a value whose operand does not survive gives nothing. -/
theorem Step.value?_filter_of_lost {step : Step} (hs : step.IsArithmetic) {v : Value} {o : Operand}
    (h : Carries v (some o)) (hlost : ¬ o.Survives) :
    (step.value? read v).filter (!isAbsent ·) = none := by
  cases step with
  | chain left op right =>
    have hnone : v.asOperand? = none := by
      rw [Value.asOperand?, h.operand?_eq, Option.filter_some, if_neg (by simpa using hlost)]
      rfl
    rw [Step.value?, h.isAbsent_eq]
    cases left with
    | some ref => rfl
    | none =>
      rw [if_neg (by simp)]
      cases right.value? read with
      | none => rfl
      | some y =>
        refine (computeValue_filter v y op).trans ?_
        rw [hnone, Operand.combine?, Operand.apply_none_left]
        rfl
  | _ => contradiction

theorem Step.isResult_of_onOperands? {step : Step} {last : Option Operand} {o : Operand}
    (h : step.onOperands? read last = some o) : o.IsResult := by
  cases step with
  | chain left op right =>
    rw [Step.onOperands?] at h
    split at h
    · contradiction
    · obtain ⟨x, -, h⟩ := Option.bind_eq_some_iff.1 h
      obtain ⟨y, -, h⟩ := Option.bind_eq_some_iff.1 h
      exact combine?_isResult h
  | _ => contradiction

theorem Order.survives_cons {last : Option Operand} {rule : Value} {rest : Order} :
    Order.Survives read last (rule :: rest) ↔ (∀ o, last = some o → o.Survives) ∧
      ∀ o, Rule.onOperands? read last rule = some o → Order.Survives read (some o) rest := by
  constructor
  · intro h
    refine ⟨fun o ho => h [] (rule :: rest) o rfl (by simp) ho,
      fun o ho before after p heq hne hp => ?_⟩
    refine h (rule :: before) after p (by rw [heq, List.cons_append]) hne ?_
    rw [Order.onOperandsFrom?, ho]
    exact hp
  · rintro ⟨hlast, hrest⟩ before after p heq hne hp
    cases before with
    | nil => exact hlast p hp
    | cons first before =>
      obtain ⟨rfl, rfl⟩ := List.cons.inj heq
      rw [Order.onOperandsFrom?] at hp
      obtain ⟨o, ho, hp⟩ := Option.bind_eq_some_iff.1 hp
      exact hrest o ho before after p rfl hne hp

theorem Order.survives_nil (last : Option Operand) : Order.Survives read last [] := by
  intro before after o heq hne
  exact absurd (List.append_eq_nil_iff.1 heq.symm).2 hne

/-- From a value that is the raw form of an operand, a chain ends with a value exactly if every
operand on its way survives, and it is the raw form of the operand that the chain ends with. -/
theorem Order.foldlM_value?_eq_some_iff {rules : Order} (hchain : rules.IsChain) {v w : Value}
    {last : Option Operand} (h : Carries v last) (hne : last = none → rules ≠ []) :
    rules.foldlM (Rule.value? read) v = some w ↔ rules.Survives read last ∧
      (rules.onOperandsFrom? read last).bind Operand.raw? = some w := by
  induction rules generalizing v last with
  | nil =>
    cases h with
    | missing => exact absurd rfl (hne rfl)
    | @raw v o result toValue =>
      have hraw : o.raw? = some v := by rw [Operand.raw?, toValue, Except.toOption]
      simp [Order.survives_nil, Order.onOperandsFrom?, hraw]
  | cons rule rest ih =>
    obtain ⟨step, hstep, harith⟩ := hchain rule (by simp)
    have hvalue : Rule.value? read v rule = (step.value? read v).filter (!isAbsent ·) := by
      rw [Rule.value?, hstep]
    have hoperand : Rule.onOperands? read last rule = step.onOperands? read last := by
      rw [Rule.onOperands?, hstep]
    rw [List.foldlM_cons, hvalue, Order.survives_cons, Order.onOperandsFrom?, hoperand]
    by_cases hlast : ∀ o, last = some o → o.Survives
    · rw [Step.value?_filter harith h hlast]
      cases ho : step.onOperands? read last with
      | none => simp [bind]
      | some o =>
        have hresult := Step.isResult_of_onOperands? ho
        obtain ⟨r, hr, -⟩ := hresult.toValue_eq
        have hraw : o.raw? = some r := by rw [Operand.raw?, hr, Except.toOption]
        have hrest := ih (fun r hr => hchain r (by simp [hr])) (.raw hresult hr) (by simp)
        have hall : (∀ p, last = some p → p.Survives) ↔ True := iff_true_intro hlast
        simpa [bind, hraw, hall] using hrest
    · -- The step after an operand that does not survive has nothing on its left.
      obtain ⟨o, rfl, hlost⟩ : ∃ o, last = some o ∧ ¬ o.Survives := by
        simpa only [not_forall, exists_prop] using hlast
      rw [Step.value?_filter_of_lost harith h hlost]
      simp [bind, hlost]

theorem Order.value?_eq_some_iff_onOperands? {rules : Order} (hchain : rules.IsChain) {w : Value} :
    rules.value? read = some w ↔
      rules.Survives read none ∧ (rules.onOperands? read).bind Operand.raw? = some w := by
  by_cases hne : rules = []
  · subst hne
    simp [Order.value?, Order.onOperands?, Order.onOperandsFrom?]
  · rw [Order.value?_eq_some_iff, Order.foldlM_value?_eq_some_iff hchain .missing fun _ => hne]
    simp [hne, Order.onOperands?]

/-- Raw values carry operands from step to step, but for days before the year 1000: a result that is
neither missing nor NaN is read back as the operand it is, or, for such a day, as none. So a chain
that is executed on raw values gives a value exactly if no operand on its way is such a day or
NaN, and then the raw form of the operand that the chain gives on operands. -/
theorem Session.execute_chain (s : Session) (hs : s.Unsettled) (rules : Order)
    (hchain : rules.IsChain) (owner : Option String) :
    (∀ v op w r, computeValue v op w = .ok r → r.isMissing = false →
      ∃ left right o, v.operand? = .ok left ∧ w.operand? = .ok right ∧
        Operand.apply left op right = .ok (some o) ∧ o.toValue = .ok r ∧
        r.operand? = .ok (if o.IsEarly then none else some o)) ∧
    (∀ v t, s.execute rules owner = (.ok v, t) →
      rules.Survives t.known none ∧ (rules.onOperands? t.known).bind Operand.raw? = some v) ∧
    ∀ v, rules.Survives s.known none → (rules.onOperands? s.known).bind Operand.raw? = some v →
      (s.execute rules owner).1 = .ok v := by
  refine ⟨fun v op w r h hr => operand?_computeValue h hr, fun v t hrun => ?_,
    fun v hall hraw => ?_⟩
  · exact (Order.value?_eq_some_iff_onOperands? hchain).1 (value?_of_execute hs hrun)
  · have hvalue := (Order.value?_eq_some_iff_onOperands? hchain).2 ⟨hall, hraw⟩
    obtain ⟨w, t, hrun, rfl⟩ := (ensures_execute_of_known rules owner hvalue).exists_run
    exact congrArg Prod.fst hrun

def Session.starting (day : String) : Session :=
  .new .standard .empty (.ofList [("start", .text day)])

/-- Ten days after the start of 2017 and twenty days before that. -/
theorem Session.execute_chain_shifted : (starting "2017-01-01").Unsettled ∧
    Order.IsChain [.text "[start]+10", .text "-20"] ∧
    ((starting "2017-01-01").execute [.text "[start]+10", .text "-20"] none).1 =
      .ok (.text "2016-12-22") := by
  have hs : (starting "2017-01-01").Unsettled := unsettled_new _ _ _
  have hchain : Order.IsChain [.text "[start]+10", .text "-20"] := by
    intro rule hrule
    rcases List.mem_cons.1 hrule with rfl | hrule
    · exact ⟨.chain (some "start") .add (.number _), rfl, trivial⟩
    · obtain rfl := List.mem_singleton.1 hrule
      exact ⟨.chain none .sub (.number _), rfl, trivial⟩
  obtain ⟨day, hday, hwritten⟩ : ∃ d, Order.onOperands? (starting "2017-01-01").known
      [.text "[start]+10", .text "-20"] = some (.day d) ∧ d.text = "2016-12-22" :=
    Operand.exists_day (by decide +kernel)
  refine ⟨hs, hchain, (execute_chain _ hs _ hchain none).2.2 _ ?_ ?_⟩
  · have hfirst : (Rule.onOperands? (starting "2017-01-01").known none (.text "[start]+10")).all
        (decide ·.Survives) = true := by decide +kernel
    refine Order.survives_cons.2 ⟨by simp, fun o ho => Order.survives_cons.2 ⟨?_, ?_⟩⟩
    · intro p hp
      rw [ho, hp, Option.all_some] at hfirst
      exact of_decide_eq_true hfirst
    · exact fun _ _ => Order.survives_nil _
  · rw [hday, ← hwritten]
    rfl

/-- The day before the year 1000 is written without a leading zero and not read back, so that the
chain that goes on from it has no value, where its operands lead back to the first day. -/
theorem Session.chain_from_year_1000 :
    (∃ r left right o, computeValue (.text "1000-01-01") (some .sub) (.int 1) = .ok r ∧
      r.isMissing = false ∧ (Value.text "1000-01-01").operand? = .ok left ∧
      (Value.int 1).operand? = .ok right ∧
      Operand.apply left (some .sub) right = .ok (some o) ∧ r.operand? = .ok none) ∧
    (∃ day, Order.onOperands? (starting "1000-01-01").known [.text "[start]-1", .text "+1"] =
      some (.day day) ∧ day.text = "1000-01-01") ∧
    ∀ v, ((starting "1000-01-01").execute [.text "[start]-1", .text "+1"] none).1 ≠ .ok v := by
  refine ⟨?_, ?_, ?_⟩
  · have hlost : (match computeValue (.text "1000-01-01") (some .sub) (.int 1) with
        | .ok r => !r.isMissing && r.asOperand?.isNone
        | .error _ => false) = true := by decide +kernel
    cases h : computeValue (.text "1000-01-01") (some .sub) (.int 1) with
    | error e => simp [h] at hlost
    | ok r =>
      simp only [h, Bool.and_eq_true, Bool.not_eq_true'] at hlost
      obtain ⟨left, right, o, hl, hr, happly, -, hread⟩ := operand?_computeValue h hlost.1
      refine ⟨r, left, right, o, rfl, hlost.1, hl, hr, happly, ?_⟩
      have hnone : (if o.IsEarly then none else some o) = none := by
        have hlost' := hlost.2
        rw [Value.asOperand?, hread] at hlost'
        exact Option.isNone_iff_eq_none.1 hlost'
      rw [hread, hnone]
  · exact Operand.exists_day (by decide +kernel)
  · have hfails : ((starting "1000-01-01").execute [.text "[start]-1", .text "+1"]
        none).1.toOption.isNone = true := by decide +kernel
    intro v hv
    rw [hv] at hfails
    contradiction

end FormulaGraph
