import FormulaGraph.Proofs.Computation.Loop
import FormulaGraph.Proofs.Computation.Stages
import FormulaGraph.Proofs.Evaluation.Completion
import FormulaGraph.Proofs.Namespaces

/-! A computed table solves the definitions: every value is supplied, or it is the one its order
has when all other values are given. -/
namespace FormulaGraph

theorem executeOrder_of_value? {ns : Namespaces} {rules : Order} {values : Table Value} {v : Value}
    (hfull : ∀ key ∈ values.keys, ns.extend key = key)
    (hv : rules.value? (values.reader ns.extend) = some v) :
    executeOrder ns rules values Table.empty = .ok v := by
  have hknown : (Session.new ns Table.empty values).known = values.reader ns.extend := by
    funext ref
    rw [Session.known, Table.reader, Session.new, Table.mapKeys_eq_self hfull]
  have hensures := Evaluation.ensures_execute_of_known rules none (hknown ▸ hv)
  unfold executeOrder
  cases hr : (Session.new ns Table.empty values).execute rules none with
  | mk result t =>
    cases result with
    | ok w => rw [hensures.ok_of_run hr]
    | error e => exact (hensures.err_of_run hr).elim

namespace Engine

variable {ns : Namespaces} {orders : Table Order} {supplied values : Table Value}

/-- Where names are in full form, the table at the end is that of the session. -/
theorem grows_of_evaluateOrders (hfull : ∀ key ∈ orders.keys, ns.extend key = key)
    (hsupplied : ∀ key ∈ supplied.keys, ns.extend key = key)
    (h : evaluateOrders ns orders supplied = .ok values) :
    (∀ key, key ∈ values.keys ↔ key ∈ supplied.keys ∨ key ∈ orders.keys) ∧
    ∃ t, Grows ns.extend orders [] supplied t ∧ ∀ key, values.get? key = t.get? key := by
  obtain ⟨t, hst, ht⟩ := evaluated_of_evaluateAll (Session.unsettled_new _ _ _) h
  have hgrow : Grows ns.extend orders [] supplied t.values := by
    have hv := hst.values
    simp only [Session.new, Table.mapKeys_eq_self hfull, Table.mapKeys_eq_self hsupplied] at hv
    exact hv
  have hknown : ∀ key ∈ orders.keys, t.known key = t.values.get? key := fun key hkey => by
    rw [Session.known, hst.namespaces]
    exact congrArg _ (hfull key hkey)
  refine ⟨fun key => ?_, t.values, hgrow, fun key => ?_⟩
  · rw [Table.mem_keys_iff, ht.get? key]
    cases hv : supplied.get? key with
    | some v => simp [Table.mem_keys_iff, hv]
    | none =>
      have hnone := Table.get?_eq_none_iff.1 hv
      by_cases hkey : key ∈ orders.keys
      · obtain ⟨v, hknown⟩ := ht.known key hkey hv
        simp [hkey, hknown]
      · simp [hkey, hnone]
  · rw [ht.get? key]
    cases hv : supplied.get? key with
    | some v => exact (hgrow.get?_mono hv).symm
    | none =>
      by_cases hkey : key ∈ orders.keys
      · simp [hkey, hknown key hkey]
      · -- the session has evaluated nothing that has no order
        have hnone : t.values.get? key = none := Table.get?_eq_none_iff.2 fun hmem =>
          (hgrow.mem_keys hmem).elim (Table.get?_eq_none_iff.1 hv) hkey
        simp [hkey, hnone]

end Engine

/-- A computed table has the supplied values, the last one of each identifier, and for every other
derived entity the value that its order has on this very table. -/
theorem compute_solves (e : Engine)
    (hidem : ∀ name, e.namespaces.extend (e.namespaces.extend name) = e.namespaces.extend name)
    (values : Table Value) (h : e.compute = .ok values) :
    ∃ found, e.discover = .ok found ∧
      (∀ key, key ∈ values.keys ↔ (∃ name ∈ e.base.keys, e.namespaces.extend name = key) ∨
        ∃ entity, found.result.get? key = some entity ∧ entity.isDerived = true) ∧
      (∀ name ∈ e.base.keys, values.get? (e.namespaces.extend name) =
        ((e.base.entries.filter (e.namespaces.extend ·.1 = e.namespaces.extend name)).getLast?).map
          Prod.snd) ∧
      (∀ key entity, found.result.get? key = some entity → entity.isDerived = true →
        (∀ name ∈ e.base.keys, e.namespaces.extend name ≠ key) →
        ∃ report v, Entity.orderFor found.result e.store e.namespaces key = .ok (some report) ∧
          values.get? key = some v ∧
          executeOrder e.namespaces (report.result.map Value.text) values Table.empty = .ok v) := by
  obtain ⟨orders, hprepare, -, hvalues⟩ := Engine.compute_eq_ok_iff.1 h
  obtain ⟨found, hfound, hentities, hkeys, horders⟩ := Engine.entries_of_prepare hprepare hidem
  have hfull : ∀ key ∈ orders.keys, e.namespaces.extend key = key := fun key hkey => by
    rw [hkeys] at hkey
    exact hentities key (List.mem_of_mem_filter hkey)
  have hsupplied : ∀ key ∈ e.supplied.keys, e.namespaces.extend key = key := fun key hkey => by
    obtain ⟨name, -, rfl⟩ := Table.mem_keys_mapKeys.1 hkey
    exact hidem name
  obtain ⟨hmem, t, hgrow, hget⟩ := Engine.grows_of_evaluateOrders hfull hsupplied hvalues
  refine ⟨found, hfound, fun key => ?_, fun name hname => ?_, fun key entity hentity hd hnew => ?_⟩
  · rw [hmem, hkeys, Entity.mem_derived, Engine.supplied, Table.mem_keys_mapKeys]
  · have hmem : e.namespaces.extend name ∈ e.supplied.keys :=
      Table.mem_keys_mapKeys.2 ⟨name, hname, rfl⟩
    obtain ⟨v, hv⟩ := Table.mem_keys_iff.1 hmem
    rw [hget, hgrow.get?_mono hv, ← hv, Engine.supplied, Table.get?_mapKeys]
  · have hkey : key ∈ values.keys := by
      rw [hmem, hkeys]
      exact Or.inr (Entity.mem_derived.2 ⟨entity, hentity, hd⟩)
    obtain ⟨v, hv⟩ := Table.mem_keys_iff.1 hkey
    have hnone : e.supplied.get? key = none := Table.get?_eq_none_iff.2 fun hs => by
      obtain ⟨name, hname, heq⟩ := Table.mem_keys_mapKeys.1 hs
      exact hnew name hname heq
    obtain ⟨-, rules, hrules, hvalue⟩ := hgrow.solved (hget key ▸ hv) hnone
    obtain ⟨report, hreport, rfl⟩ := horders key rules hrules
    have hread : t.reader e.namespaces.extend = values.reader e.namespaces.extend := by
      funext ref
      exact (hget _).symm
    have hfullv : ∀ name ∈ values.keys, e.namespaces.extend name = name := fun name hname =>
      ((hmem name).1 hname).elim (hsupplied name) (hfull name)
    exact ⟨report, v, hreport, hv, executeOrder_of_value? hfullv (hread ▸ hvalue)⟩

/-- An engine with a derived entity for each identifier of a list, with one rule, and the value 1 of
`x`. -/
def Engine.ofRules (ns : Namespaces) (rules : List (String × String)) : Engine :=
  let triples := rules.flatMap fun (uri, rule) => [
    ⟨uri, Namespaces.standard.extend Entity.typePredicate, .text "kno:StatisticValue"⟩,
    ⟨uri, "http://knorke/computationOrder", .text ("http://order/" ++ uri)⟩,
    ⟨"http://order/" ++ uri, "http://knorke/_1", .text rule⟩]
  Engine.new ⟨.standard, triples⟩ (Table.ofList [("x", .int 1)]) Settings.default (some ns)

def Engine.doubled : Engine :=
  let type := Namespaces.standard.extend Entity.typePredicate
  let store : Store := ⟨.standard, [
    ⟨"b", type, .text "kno:StatisticValue"⟩,
    ⟨"b", "http://knorke/computationOrder", .text "o"⟩,
    ⟨"o", "http://knorke/_1", .text "[a]*2"⟩]⟩
  Engine.new store (Table.ofList [("a", .int 1)]) Settings.default (some .standard)

theorem compute_solves_doubled : ∃ values found report v,
    Engine.doubled.compute = .ok values ∧ Engine.doubled.discover = .ok found ∧
    Entity.orderFor found.result Engine.doubled.store Engine.doubled.namespaces "b" =
      .ok (some report) ∧
    values.get? "b" = some v ∧
    executeOrder Engine.doubled.namespaces (report.result.map Value.text) values Table.empty =
      .ok v := by
  have hkeys : Engine.doubled.compute.toOption.map (·.keys) = some ["a", "b"] := by
    decide +kernel
  cases hv : Engine.doubled.compute with
  | error cause => simp [hv, Except.toOption] at hkeys
  | ok values =>
    have hnew : ∀ name ∈ Engine.doubled.base.keys,
        Engine.doubled.namespaces.extend name ≠ "b" := by decide +kernel
    obtain ⟨found, hfound, hmem, -, hsolved⟩ :=
      compute_solves Engine.doubled Namespaces.standard_extend_extend values hv
    have hb : "b" ∈ values.keys := by
      rw [hv] at hkeys
      have heq : values.keys = ["a", "b"] := Option.some.inj hkeys
      simp [heq]
    obtain ⟨name, hname, heq⟩ | ⟨entity, hentity, hd⟩ := (hmem "b").1 hb
    · exact absurd heq (hnew name hname)
    · obtain ⟨report, v, hreport, hvalue, hexecute⟩ := hsolved "b" entity hentity hd hnew
      exact ⟨values, found, report, v, rfl, hfound, hreport, hvalue, hexecute⟩

end FormulaGraph
