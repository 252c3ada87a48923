import FormulaGraph.Proofs.Computation.Solution
import FormulaGraph.Proofs.Dependency.Generations

/-! Looking for cycles beforehand and running into them come to the same. A computation that ends
with values ranks the identifiers by the time of their evaluation; where there is a ranking, the
identifiers under evaluation have ever lower ranks, and none is met again. -/
namespace FormulaGraph

theorem Engine.rankable_of_evaluateOrders {ns : Namespaces} {orders : Table Order}
    {supplied values : Table Value} (hfull : ∀ key ∈ orders.keys, ns.extend key = key)
    (hsupplied : ∀ key ∈ supplied.keys, ns.extend key = key)
    (h : evaluateOrders ns orders supplied = .ok values) :
    orders.Rankable ns.extend supplied.contains := by
  obtain ⟨hmem, t, hgrow, hget⟩ := grows_of_evaluateOrders hfull hsupplied h
  refine ⟨t.keys.idxOf, ?_⟩
  rintro source target ⟨rules, hrules, rule, hrule, htarget⟩ hknown
  obtain ⟨ref, href, rfl⟩ := List.mem_map.1 htarget
  have hnone : supplied.get? source = none := by
    rw [Table.get?_eq_none_iff, ← Table.contains_iff, hknown]
    simp
  have hsource : source ∈ t.keys := by
    have hvalue := (hmem source).2 (Or.inr (Table.mem_keys_iff.2 ⟨rules, hrules⟩))
    rw [Table.mem_keys_iff, hget source] at hvalue
    exact Table.mem_keys_iff.2 hvalue
  exact hgrow.idxOf_lt hsource hnone hrules hrule (Rule.dependencies_subset rule href)

/-- Evaluations of ever lower ranks, which do not break off with a cycle. -/
def Evaluation.descent {extend : String → String} {orders : Table Order} {supplied : Table Value}
    {rank : String → Nat} (hr : ∀ source target, orders.Depends extend source target →
      supplied.contains source = false → rank target < rank source) : Protocol where
  keeps := Session.GrowsTo
  breaks e _ _ := ∀ cycle, e ≠ .cyclic cycle
  refl := .refl
  trans := @Session.GrowsTo.trans
  after _ h := h
  namespaces := @Session.GrowsTo.namespaces
  known := @Session.GrowsTo.get?_mono
  fault _ _ _ _ := nofun
  arithmetic _ _ _ := nofun
  ready _ ref s := s.GrownFrom extend orders supplied ∧
    ∀ key ∈ s.inProgress, rank (extend ref) < rank key
  still h hst := ⟨h.1.growsTo hst, hst.inProgress ▸ h.2⟩
  tooDeep _ _ := nofun
  undefined _ _ _ _ := nofun
  cyclic h _ _ hmem := by
    rw [h.1.extend_eq] at hmem
    exact absurd (h.2 _ hmem) (Nat.lt_irrefl _)
  enter := by
    rintro depth ref s rules ⟨hs, hstack⟩ ho name ⟨rule, hrule, hname⟩
    have horder : orders.get? (extend ref) = some rules := by
      rw [← hs.get?_orders, ← hs.extend_eq, ho.order]
    have hnew : supplied.contains (extend ref) = false := by
      have hnone : supplied.get? (extend ref) = none :=
        hs.values.get?_of_none (hs.extend_eq ▸ ho.unknown)
      rw [Table.contains, hnone]
      rfl
    have hlt := hr (extend ref) (extend name)
      ⟨rules, horder, rule, hrule, List.mem_map.2 ⟨name, hname, rfl⟩⟩ hnew
    refine ⟨hs.enter ho, fun key hkey => ?_⟩
    rcases List.mem_append.1 hkey with hkey | hkey
    · exact Nat.lt_trans hlt (hstack key hkey)
    · rw [List.mem_singleton.1 hkey, hs.extend_eq]
      exact hlt
  leave h ho hst hv _ := .leave h.1.unsettled ho hst hv
  unwritable _ _ _ _ _ _ := nofun
  escape _ _ h := h

theorem Engine.evaluateOrders_ne_cyclic {ns : Namespaces} {orders : Table Order}
    {supplied : Table Value} (hfull : ∀ key ∈ orders.keys, ns.extend key = key)
    (hsupplied : ∀ key ∈ supplied.keys, ns.extend key = key)
    (hr : orders.Rankable ns.extend supplied.contains) (cycle : List String) :
    evaluateOrders ns orders supplied ≠ .error (.cyclic cycle) := by
  intro h
  obtain ⟨rank, hr⟩ := hr
  obtain ⟨uri, -, -, s, hs, t, hfail⟩ :=
    resolve_of_evaluateAll_error (Session.unsettled_new _ _ _) h
  have hnew : (Session.new ns orders supplied).GrownFrom ns.extend orders supplied := {
    extend_eq := rfl
    get?_orders := fun key => by rw [Session.new, Table.mapKeys_eq_self hfull]
    values := by rw [Session.new, Table.mapKeys_eq_self hsupplied]; exact .refl
    unsettled := Session.unsettled_new _ _ _ }
  have hready : (Evaluation.descent hr).ready s.depth uri s := by
    refine ⟨hnew.growsTo hs, fun key hkey => ?_⟩
    rw [hs.inProgress] at hkey
    simp [Session.new] at hkey
  exact ((Evaluation.descent hr).ensures_resolve hready).err_of_run hfail cycle rfl

/-- The engine with the look for cycles switched on or off. -/
def Engine.checking (e : Engine) (eager : Bool) : Engine :=
  { e with settings := { e.settings with eagerCheck := .bool eager } }

namespace Engine

theorem check_eq_ok_iff {e : Engine} {orders : Table Order} :
    e.check orders = .ok () ↔ (e.settings.eagerCheck.isTrue = true →
      orders.Rankable e.namespaces.extend e.supplied.contains) := by
  rw [← checkAcyclic_ok_iff, check]
  cases e.settings.eagerCheck.isTrue with
  | false => simp
  | true => cases checkAcyclic e.namespaces.extend orders e.supplied.contains <;> simp

theorem check_checking_false (e : Engine) (orders : Table Order) :
    (e.checking false).check orders = .ok () := rfl

theorem check_checking_true_iff {e : Engine} {orders : Table Order} :
    (e.checking true).check orders = .ok () ↔
      orders.Rankable e.namespaces.extend e.supplied.contains :=
  check_eq_ok_iff.trans ⟨fun h => h rfl, fun h _ => h⟩

end Engine

/-- **The look for cycles and the guard against them agree.** A computation ends with the same
values whether or not cycles are looked for beforehand; where the look has found none, evaluation
does not break off with a cycle. -/
theorem eager_check_agrees (e : Engine)
    (hidem : ∀ name, e.namespaces.extend (e.namespaces.extend name) = e.namespaces.extend name) :
    (∀ values, (e.checking true).compute = .ok values ↔
      (e.checking false).compute = .ok values) ∧
    (∀ orders names, e.prepare = .ok orders →
      checkAcyclic e.namespaces.extend orders e.supplied.contains = .ok names →
      ∀ cycle, Engine.evaluateOrders e.namespaces orders e.supplied ≠ .error (.cyclic cycle)) := by
  have hsupplied : ∀ key ∈ e.supplied.keys, e.namespaces.extend key = key := fun key hkey => by
    obtain ⟨name, -, rfl⟩ := Table.mem_keys_mapKeys.1 hkey
    exact hidem name
  have hfull : ∀ orders, e.prepare = .ok orders →
      ∀ key ∈ orders.keys, e.namespaces.extend key = key := by
    intro orders hprepare key hkey
    obtain ⟨found, -, hentities, hkeys, -⟩ := Engine.entries_of_prepare hprepare hidem
    rw [hkeys] at hkey
    exact hentities key (List.mem_of_mem_filter hkey)
  constructor
  · intro values
    rw [Engine.compute_eq_ok_iff, Engine.compute_eq_ok_iff]
    refine exists_congr fun orders => and_congr_right fun hprepare => ?_
    rw [Engine.check_checking_true_iff, Engine.check_checking_false]
    constructor
    · exact fun h => ⟨rfl, h.2⟩
    · rintro ⟨-, hvalues⟩
      exact ⟨Engine.rankable_of_evaluateOrders (hfull orders hprepare) hsupplied hvalues, hvalues⟩
  · intro orders names hprepare hcheck
    exact Engine.evaluateOrders_ne_cyclic (hfull orders hprepare) hsupplied
      (checkAcyclic_ok_iff.1 ⟨names, hcheck⟩)

theorem eager_check_agrees_doubled : ∃ values orders names,
    (Engine.doubled.checking true).compute = .ok values ∧
    (Engine.doubled.checking false).compute = .ok values ∧
    Engine.doubled.prepare = .ok orders ∧
    checkAcyclic Engine.doubled.namespaces.extend orders Engine.doubled.supplied.contains =
      .ok names ∧
    ∀ cycle, Engine.evaluateOrders Engine.doubled.namespaces orders Engine.doubled.supplied ≠
      .error (.cyclic cycle) := by
  obtain ⟨hagree, hguard⟩ :=
    eager_check_agrees Engine.doubled Namespaces.standard_extend_extend
  have hsome : (Engine.doubled.checking true).compute.toOption.isSome = true := by
    decide +kernel
  cases hv : (Engine.doubled.checking true).compute with
  | error cause => simp [hv, Except.toOption] at hsome
  | ok values =>
    obtain ⟨orders, hprepare, hcheck, -⟩ := Engine.compute_eq_ok_iff.1 hv
    obtain ⟨names, hnames⟩ := checkAcyclic_ok_iff.2 (Engine.check_checking_true_iff.1 hcheck)
    exact ⟨values, orders, names, rfl, (hagree values).1 hv, hprepare, hnames,
      hguard orders names hprepare hnames⟩

end FormulaGraph
