import FormulaGraph.Proofs.Computation.Discovery
import FormulaGraph.Proofs.Computation.Loop
import FormulaGraph.Proofs.Evaluation.Depth
import FormulaGraph.Proofs.Evaluation.Plain
import FormulaGraph.Proofs.Namespaces

/-! How a computation can fail: in one of the ways its callers are told of, or because a number has
left the range in which it can be converted. -/
namespace FormulaGraph

/-- The failures that callers are told of. -/
def ComputationError.isDocumented : ComputationError → Bool
  | missingBase _ | cyclicOrders _ => true
  | evaluation (.invalidRule _ _) | evaluation (.undefinedOrder _ _) | evaluation (.cyclic _) => true
  | evaluation (.arithmetic .divisionByZero) => true
  | _ => false

namespace Engine

variable {e : Engine} {orders : Table Order}

def Supplies (e : Engine) (v : Value) : Prop := ∃ key, e.base.get? key = some v

/-- The machine gets to a configuration when it resolves an identifier with an order, behind those
resolved before it. -/
def Visits (e : Engine) (c : Machine.Configuration) : Prop :=
  ∃ orders t uri, e.prepare = .ok orders ∧ uri ∈ orders.keys ∧
    (Session.new e.namespaces orders e.supplied).GrowsTo t ∧
    Machine.Reaches ⟨t, .resolve uri, []⟩ c

/-- A number has left its range: that of a step has too many digits, a supplied integer is too large
for a double, an infinity is rounded up, or a supplied value has too many digits and is to be stored or
named in a message. -/
inductive OutOfRange (e : Engine) : ComputationError → Prop where
  | index {cause : DiscoveryError} : Entity.TooLong e.store e.namespaces cause →
      OutOfRange e (.discovery cause)
  | integer {n : Int} : e.Supplies (.int n) → Double.ofInt? n = none →
      OutOfRange e (.evaluation (.arithmetic .overflow))
  | infinity {c : Machine.Configuration} : e.Visits c → c.RoundsInfinity →
      OutOfRange e (.evaluation (.arithmetic .overflow))
  | stored {v : Value} : e.Supplies v → v.isWritable = false → OutOfRange e (.evaluation .longInteger)
  | named {v : Value} : e.Supplies v → v.isWritable = false →
      OutOfRange e (.evaluation (.arithmetic .longInteger))

theorem plain_new (hbase : ∀ key o, e.base.get? key ≠ some (.operand o)) (orders : Table Order) :
    (Session.new e.namespaces orders e.supplied).Plain e.Supplies := by
  intro key v hv
  obtain ⟨full, hfull⟩ := Table.exists_of_get?_mapKeys hv
  obtain ⟨name, hname⟩ := Table.exists_of_get?_mapKeys hfull
  cases v with
  | operand o => exact hbase name o hname
  | int n => exact ⟨name, hname⟩
  | list items => exact ⟨name, hname⟩
  | record fields => exact ⟨name, hname⟩
  | _ => trivial

theorem documented_or_outOfRange_of_evaluateOrders
    (hbase : ∀ key o, e.base.get? key ≠ some (.operand o)) (hprepare : e.prepare = .ok orders)
    {cause : EvaluationError} (h : evaluateOrders e.namespaces orders e.supplied = .error cause) :
    (ComputationError.evaluation cause).isDocumented = true ∨ e.OutOfRange (.evaluation cause) := by
  have hs := Session.unsettled_new e.namespaces orders e.supplied
  obtain ⟨uri, huri, -, t, ⟨hgrow, hplain⟩, u, hr⟩ := exists_of_evaluateAll_error
    (P := fun t => (Session.new e.namespaces orders e.supplied).GrowsTo t ∧ t.Plain e.Supplies)
    (fun ⟨hgrow, hplain⟩ hr =>
      ⟨hgrow.trans (Session.growsTo_of_resolve (hgrow.unsettled hs) hr), hplain.resolve hr⟩)
    ⟨.refl _, plain_new hbase orders⟩ h
  rcases hplain.resolve hr with rfl | hexcused
  · exact absurd hr (Session.resolve_ne_tooDeep hgrow.inProgress)
  cases cause with
  | arithmetic reason => cases reason with
    | divisionByZero => exact Or.inl rfl
    | notANumber => rcases hexcused with hexpected | ⟨hreason, -⟩ <;> contradiction
    | overflow =>
      rcases hexcused with ⟨n, hn, hlarge⟩ | ⟨-, c, hc, hround⟩
      · exact Or.inr (.integer hn hlarge)
      · exact Or.inr (.infinity ⟨orders, t, uri, hprepare, huri, hgrow, hc⟩ hround)
    | longInteger =>
      rcases hexcused with ⟨v, hv, hlong⟩ | ⟨hreason, -⟩
      · exact Or.inr (.named hv hlong)
      · contradiction
  | longInteger =>
    obtain ⟨v, hv, hlong⟩ := hexcused
    exact Or.inr (.stored hv hlong)
  | tooDeep => exact absurd hr (Session.resolve_ne_tooDeep hgrow.inProgress)
  | _ => exact Or.inl rfl

/-- Evaluates identifiers in turn as `evaluateAll` does, with room for `room` evaluations inside each
other. -/
def evaluateAllWithin (room : Nat) (s : Session) (values : Table Value) : List String →
    Except EvaluationError (Table Value)
  | [] => .ok values
  | uri :: rest =>
    if values.contains uri then evaluateAllWithin room s values rest
    else match (Evaluation.resolve room uri).run s with
      | (.ok v, s) => evaluateAllWithin room s (values.insert uri v) rest
      | (.error e, _) => .error e

/-- The computation with room for `room` evaluations inside each other. -/
def computeWithin (e : Engine) (room : Nat) : Except ComputationError (Table Value) :=
  e.prepare.bind fun orders => (e.check orders).bind fun _ =>
    (evaluateAllWithin room (Session.new e.namespaces orders e.supplied) e.supplied
      orders.keys).mapError .evaluation

theorem evaluateAllWithin_eq_or {s : Session} (hs : s.inProgress = []) (room : Nat)
    (values : Table Value) (uris : List String) :
    evaluateAllWithin room s values uris = evaluateAll s values uris ∨
      room ≤ s.orders.size ∧ evaluateAllWithin room s values uris = .error .tooDeep := by
  induction uris generalizing s values with
  | nil => exact Or.inl rfl
  | cons uri rest ih =>
    rw [evaluateAllWithin, evaluateAll]
    split
    · exact ih hs values
    rcases Session.run_resolve_or_tooDeep hs room uri with hrun | ⟨hroom, t, hrun⟩
    · rw [hrun]
      cases hr : s.resolve uri with
      | mk result t =>
      cases result with
      | error cause => exact Or.inl rfl
      | ok v =>
        have hgrow := Session.growsTo_of_resolve (by simp [Session.Unsettled, hs]) hr
        rw [← hgrow.orders]
        exact ih (hgrow.inProgress.trans hs) _
    · rw [hrun]
      exact Or.inr ⟨hroom, rfl⟩

/-- With too little room for its orders a computation may be given up, else nothing changes. -/
theorem computeWithin_eq_or (e : Engine) (room : Nat) : e.computeWithin room = e.compute ∨
    (∃ orders, e.prepare = .ok orders ∧ room ≤ orders.size) ∧
      e.computeWithin room = .error (.evaluation .tooDeep) := by
  rw [compute_eq, computeWithin]
  cases hprepare : e.prepare with
  | error cause => exact Or.inl rfl
  | ok orders =>
  simp only [Except.bind]
  cases e.check orders with
  | error cause => exact Or.inl rfl
  | ok _ =>
    have hidle : (Session.new e.namespaces orders e.supplied).inProgress = [] := rfl
    dsimp only [evaluateOrders]
    rcases evaluateAllWithin_eq_or hidle room e.supplied orders.keys with h | ⟨hroom, h⟩ <;> rw [h]
    · exact Or.inl rfl
    · exact Or.inr ⟨⟨orders, rfl, hroom.trans (Table.size_mapKeys_le _ _)⟩, rfl⟩

theorem documented_or_outOfRange_of_compute (hs : e.store.Textual)
    (hv : e.settings.vocabulary.Textual) (hbase : ∀ key o, e.base.get? key ≠ some (.operand o))
    (hidem : ∀ name, e.namespaces.extend (e.namespaces.extend name) = e.namespaces.extend name)
    {cause : ComputationError} (h : e.compute = .error cause) :
    cause.isDocumented = true ∨ e.OutOfRange cause := by
  rcases compute_eq_error_iff.1 h with hfail | ⟨orders, hprepare, hfail | ⟨-, reason, hfail, rfl⟩⟩
  · rcases missingBase_or_tooLong_of_prepare hs hv hidem hfail with
      ⟨entity, rfl⟩ | ⟨reason, rfl, hlong⟩
    · exact Or.inl rfl
    · exact Or.inr (.index hlong)
  · obtain ⟨cycles, rfl⟩ := cyclicOrders_of_check hfail
    exact Or.inl rfl
  · exact documented_or_outOfRange_of_evaluateOrders hbase hprepare hfail

/-- A computation on texts that gives no values fails in a documented way, unless a number has left its
range. Where there is room for fewer evaluations inside each other than there are orders, it may be
given up instead. -/
theorem compute_documented (hs : e.store.Textual) (hv : e.settings.vocabulary.Textual)
    (hbase : ∀ key o, e.base.get? key ≠ some (.operand o))
    (hidem : ∀ name, e.namespaces.extend (e.namespaces.extend name) = e.namespaces.extend name) :
    (∀ cause, e.compute = .error cause → cause.isDocumented = true ∨ e.OutOfRange cause) ∧
    ∀ room cause, e.computeWithin room = .error cause → cause.isDocumented = true ∨
      e.OutOfRange cause ∨ cause = .evaluation .tooDeep ∧
        ∃ orders, e.prepare = .ok orders ∧ room ≤ orders.size := by
  have hcompute : ∀ cause, e.compute = .error cause →
      cause.isDocumented = true ∨ e.OutOfRange cause := fun _ =>
    documented_or_outOfRange_of_compute hs hv hbase hidem
  refine ⟨hcompute, fun room cause h => ?_⟩
  rcases e.computeWithin_eq_or room with heq | ⟨hroom, heq⟩
  · exact (hcompute cause (heq ▸ h)).imp_right Or.inl
  · obtain rfl := Except.error.inj (heq.symm.trans h)
    exact Or.inr (Or.inr ⟨rfl, hroom⟩)

/-- An engine with an integer for `a` that is too large for a double, and the derived entity `b`, twice as much. -/
def enormous : Engine :=
  let type := Namespaces.standard.extend Entity.typePredicate
  let store : Store := ⟨.standard, [
    ⟨"b", type, .text "kno:StatisticValue"⟩,
    ⟨"b", "http://knorke/computationOrder", .text "o"⟩,
    ⟨"o", "http://knorke/_1", .text "[a]*2"⟩]⟩
  new store (Table.ofList [("a", .int (10 ^ 309))]) Settings.default (some .standard)

theorem textual_enormous : enormous.store.Textual := by
  unfold Store.Textual
  decide

theorem textual_default : Settings.default.vocabulary.Textual where
  entityType := rfl
  orderPredicate := rfl
  notKey _ h := nomatch h

theorem compute_enormous :
    enormous.compute = .error (.evaluation (.arithmetic .overflow)) := by
  have hrun : enormous.failsBy ComputationError.isOverflow = true := by decide +kernel
  obtain ⟨cause, hfail, hoverflow⟩ := exists_of_failsBy hrun
  rw [hfail, ComputationError.eq_of_isOverflow hoverflow]

theorem compute_documented_enormous :
    enormous.OutOfRange (.evaluation (.arithmetic .overflow)) := by
  have hbase : ∀ key o, enormous.base.get? key ≠ some (.operand o) := by
    intro key o h
    have hget : Table.lastOf [("a", Value.int (10 ^ 309))] key = some (.operand o) :=
      (Table.get?_ofList _ _).symm.trans h
    exact nomatch List.mem_singleton.1 (Table.mem_of_lastOf hget)
  have hdocumented := (compute_documented textual_enormous textual_default hbase
    Namespaces.standard_extend_extend).1 _ compute_enormous
  exact hdocumented.resolve_left (by decide)

/-- An overflow is no documented failure: it comes up where a supplied integer is too large for a
double. -/
theorem overflow_enormous :
    enormous.store.Textual ∧ enormous.settings.vocabulary.Textual ∧
      (∀ name, enormous.namespaces.extend (enormous.namespaces.extend name) =
        enormous.namespaces.extend name) ∧
      ∃ cause, enormous.compute = .error cause ∧ cause.isDocumented = false :=
  ⟨textual_enormous, textual_default, Namespaces.standard_extend_extend, _, compute_enormous, rfl⟩

end Engine
end FormulaGraph
