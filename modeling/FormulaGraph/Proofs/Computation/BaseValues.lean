import Mathlib.Data.List.Find
import FormulaGraph.Proofs.Computation.Loop
import FormulaGraph.Proofs.Computation.Solution
import FormulaGraph.Proofs.Computation.Stages
import FormulaGraph.Proofs.Evaluation.Listing
import FormulaGraph.Proofs.Namespaces

/-! Base values. They are found to be missing exactly where one is, then none is missed later on, and
nothing depends on which names they are supplied under or on the order in which they are listed. -/
namespace FormulaGraph

namespace Entity

variable {ns : Namespaces} {base : Table Value} {uri : String}

theorem isSupplied_iff (huri : ns.extend uri = uri) :
    isSupplied ns base uri = true ↔ ∃ key ∈ base.keys, ns.extend key = uri := by
  unfold isSupplied
  rw [huri, Bool.or_eq_true, List.any_eq_true, Table.contains_iff]
  simp only [decide_eq_true_eq]
  constructor
  · rintro (h | h)
    · exact h
    · exact ⟨_, h, Namespaces.extend_shorten huri⟩
  · exact Or.inl

theorem unsupplied?_eq (entities : Table Entity) : unsupplied? ns base entities =
    (entities.entries.find? fun entry => !entry.2.isDerived && !isSupplied ns base entry.1).map
      Prod.snd := rfl

theorem uri_of_discover {store : Store} {vocabulary : Vocabulary} {found : Reported (Table Entity)}
    (h : discover store ns vocabulary = .ok found) {entry : String × Entity}
    (hentry : entry ∈ found.result.entries) : entry.2.uri = entry.1 := by
  have hget := Table.get?_eq_some_iff.2 hentry
  obtain ⟨sheet, name, report, -, hname, hentity, hfull⟩ := exists_of_discover h hget
  rw [← hentity, uri_of_ofRows hname, hfull]

end Entity

namespace Evaluation

def lacking : Protocol where
  keeps := Session.GrowsTo
  breaks e s _ := ∀ key orders, e = .undefinedOrder key orders →
    s.orders.get? key = none ∧ s.values.get? key = none
  refl := .refl
  trans := @Session.GrowsTo.trans
  after hst h key orders he := by
    obtain ⟨ho, hv⟩ := h key orders he
    exact ⟨hst.orders ▸ ho, hst.values.get?_of_none hv⟩
  namespaces := @Session.GrowsTo.namespaces
  known := @Session.GrowsTo.get?_mono
  fault _ _ _ := nofun
  arithmetic _ _ := nofun
  ready _ _ s := s.Unsettled
  still hs h := h.unsettled hs
  tooDeep _ := nofun
  undefined _ hv ho key orders he := by
    obtain ⟨rfl, -⟩ := EvaluationError.undefinedOrder.inj he
    exact ⟨ho, hv⟩
  cyclic _ _ _ _ := nofun
  enter hs ho _ _ := hs.enter ho
  leave hs ho h hv _ := .leave hs ho h hv
  unwritable _ _ _ _ _ := nofun
  escape _ _ h := h

end Evaluation

theorem Session.lacks_of_resolve {s t : Session} (hs : s.Unsettled) {identifier key : String}
    {orders : Table Order} (hr : s.resolve identifier = (.error (.undefinedOrder key orders), t)) :
    s.orders.get? key = none ∧ s.values.get? key = none := by
  have hready : Evaluation.lacking.ready s.depth identifier s := hs
  exact (Evaluation.lacking.ensures_resolve hready).err_of_run hr key orders rfl

/-- The failures differ at most in how they list the values at the time. -/
inductive ComputationError.Relists : ComputationError → ComputationError → Prop where
  | same (cause : ComputationError) : Relists cause cause
  | evaluation {cause cause' : EvaluationError} : cause.Relists cause' →
      Relists (.evaluation cause) (.evaluation cause')

namespace Engine

/-- The same values or the same failure, up to the order in which values are listed. -/
inductive SameOutcome : Except ComputationError (Table Value) →
    Except ComputationError (Table Value) → Prop where
  | values {t u : Table Value} : t.Relists u → SameOutcome (.ok t) (.ok u)
  | failure {cause cause' : ComputationError} : cause.Relists cause' →
      SameOutcome (.error cause) (.error cause')

/-- A base entity for which no value is supplied. -/
structure Lacks (e : Engine) (entity : Entity) : Prop where
  isBase : entity.isDerived = false
  unsupplied : ∀ key ∈ e.base.keys, e.namespaces.extend key ≠ entity.uri

variable {e : Engine} {found : Reported (Table Entity)}

section Validation

variable (hidem : ∀ name, e.namespaces.extend (e.namespaces.extend name) = e.namespaces.extend name)
  (hfound : e.discover = .ok found)
include hidem hfound

theorem lacks_iff {entry : String × Entity} (hentry : entry ∈ found.result.entries) :
    (!entry.2.isDerived && !Entity.isSupplied e.namespaces e.base entry.1) = true ↔
      e.Lacks entry.2 := by
  have huri := Entity.uri_of_discover hfound hentry
  have hfull := full_of_discover hidem hfound (List.mem_map_of_mem hentry)
  have hsupplied : Entity.isSupplied e.namespaces e.base entry.1 = true ↔
      ∃ key ∈ e.base.keys, e.namespaces.extend key = entry.1 := Entity.isSupplied_iff hfull
  rw [Bool.and_eq_true, Bool.not_eq_true', Bool.not_eq_true', ← Bool.not_eq_true (Entity.isSupplied _ _ _),
    hsupplied]
  constructor
  · rintro ⟨hbase, hnone⟩
    exact ⟨hbase, fun key hkey heq => hnone ⟨key, hkey, heq.trans huri⟩⟩
  · rintro ⟨hbase, hnone⟩
    exact ⟨hbase, fun ⟨key, hkey, heq⟩ => hnone key hkey (heq.trans huri.symm)⟩

/-- The entity that is said to lack a value is the first one that does. -/
theorem unsupplied?_eq_some_iff {entity : Entity} :
    Entity.unsupplied? e.namespaces e.base found.result = some entity ↔
      ∃ before after, found.result.entries = before ++ (entity.uri, entity) :: after ∧
        e.Lacks entity ∧ ∀ entry ∈ before, ¬ e.Lacks entry.2 := by
  rw [Entity.unsupplied?_eq, Option.map_eq_some_iff]
  constructor
  · rintro ⟨⟨uri, entity⟩, hfind, rfl⟩
    obtain ⟨hp, before, after, hsplit, hbefore⟩ := List.find?_eq_some_iff_append.1 hfind
    have hmem : ∀ entry ∈ before, entry ∈ found.result.entries := fun entry h =>
      hsplit ▸ List.mem_append_left _ h
    have hself : (uri, entity) ∈ found.result.entries := by simp [hsplit]
    have huri : entity.uri = uri := Entity.uri_of_discover hfound hself
    refine ⟨before, after, by rw [hsplit, huri], (lacks_iff hidem hfound hself).1 hp, ?_⟩
    intro entry hentry hlacks
    have hnot := hbefore entry hentry
    rw [(lacks_iff hidem hfound (hmem entry hentry)).2 hlacks] at hnot
    contradiction
  · rintro ⟨before, after, hsplit, hlacks, hbefore⟩
    refine ⟨(entity.uri, entity), List.find?_eq_some_iff_append.2 ⟨?_, before, after, hsplit, ?_⟩, rfl⟩
    · have hself : (entity.uri, entity) ∈ found.result.entries := by simp [hsplit]
      exact (lacks_iff hidem hfound hself).2 hlacks
    · intro entry hentry
      have hmem : entry ∈ found.result.entries := hsplit ▸ List.mem_append_left _ hentry
      rw [Bool.not_eq_true', ← Bool.not_eq_true, lacks_iff hidem hfound hmem]
      exact hbefore entry hentry

theorem mem_supplied_of_validated
    (hall : Entity.unsupplied? e.namespaces e.base found.result = none) {key : String} {entity : Entity}
    (hget : found.result.get? key = some entity) (hbase : entity.isDerived = false) :
    key ∈ e.supplied.keys := by
  have hentry := Table.get?_eq_some_iff.1 hget
  rw [Entity.unsupplied?_eq, Option.map_eq_none_iff, List.find?_eq_none] at hall
  have hnot := hall _ hentry
  rw [lacks_iff hidem hfound hentry] at hnot
  by_contra hkey
  refine hnot ⟨hbase, fun name hname heq => hkey ?_⟩
  refine Table.mem_keys_mapKeys.2 ⟨name, hname, ?_⟩
  exact heq.trans (Entity.uri_of_discover hfound hentry)

end Validation

theorem compute_eq_missingBase_iff {entity : Entity} :
    e.compute = .error (.missingBase entity) ↔ ∃ found, e.discover = .ok found ∧
      Entity.unsupplied? e.namespaces e.base found.result = some entity := by
  rw [compute_eq_error_iff, prepare_eq_error_iff]
  constructor
  · rintro ((⟨reason, -, heq⟩ | ⟨found, hfound, ⟨entity', hmissing, heq⟩ | ⟨-, hlater⟩⟩) |
      ⟨orders, -, hfail | ⟨-, reason, -, heq⟩⟩)
    · contradiction
    · obtain rfl := ComputationError.missingBase.inj heq
      exact ⟨found, hfound, hmissing⟩
    · rcases hlater with ⟨reason, -, heq⟩ | ⟨texts, -, hfail⟩
      · contradiction
      · obtain ⟨uri, -, heq⟩ := unknownOrder_of_complete hfail
        contradiction
    · obtain ⟨cycles, heq⟩ := cyclicOrders_of_check hfail
      contradiction
    · contradiction
  · rintro ⟨found, hfound, hmissing⟩
    exact Or.inl (Or.inr ⟨found, hfound, Or.inl ⟨entity, hmissing, rfl⟩⟩)

/-- What is said to be undefined is no entity that was found. -/
theorem undefined_not_found
    (hidem : ∀ name, e.namespaces.extend (e.namespaces.extend name) = e.namespaces.extend name)
    {key : String} {orders : Table Order}
    (h : e.compute = .error (.evaluation (.undefinedOrder key orders)))
    (hfound : e.discover = .ok found) : key ∉ found.result.keys := by
  intro hkey
  have hself := full_of_discover hidem hfound hkey
  rcases compute_eq_error_iff.1 h with hfail | ⟨orders, hprepare, hfail | ⟨-, reason, hfail, heq⟩⟩
  · rcases prepare_eq_error_iff.1 hfail with ⟨reason, -, heq⟩ | ⟨found', -, ⟨entity, -, heq⟩ |
      ⟨-, ⟨reason, -, heq⟩ | ⟨texts, -, hcomplete⟩⟩⟩
    · contradiction
    · contradiction
    · contradiction
    · obtain ⟨uri, -, heq⟩ := unknownOrder_of_complete hcomplete
      contradiction
  · obtain ⟨cycles, heq⟩ := cyclicOrders_of_check hfail
    contradiction
  · obtain rfl := ComputationError.evaluation.inj heq
    obtain ⟨found', hfound', hall, -⟩ := prepare_eq_ok_iff.1 hprepare
    obtain rfl := Except.ok.inj (hfound.symm.trans hfound')
    obtain ⟨found', hfound', -, hkeys, -⟩ := entries_of_prepare hprepare hidem
    obtain rfl := Except.ok.inj (hfound.symm.trans hfound')
    have hs := Session.unsettled_new e.namespaces orders e.supplied
    obtain ⟨uri, -, -, t, hgrow, u, hr⟩ := resolve_of_evaluateAll_error hs hfail
    obtain ⟨horder, hvalue⟩ := Session.lacks_of_resolve (hgrow.unsettled hs) hr
    rw [hgrow.orders] at horder
    have hvalue := hgrow.values.get?_of_none hvalue
    obtain ⟨entity, hentity⟩ := Table.mem_keys_iff.1 hkey
    -- A derived entity has an order under this very key, a base entity a value.
    cases hd : entity.isDerived with
    | true =>
      refine Table.get?_eq_none_iff.1 horder (Table.mem_keys_mapKeys.2 ⟨key, ?_, hself⟩)
      rw [hkeys, Entity.mem_derived]
      exact ⟨entity, hentity, hd⟩
    | false =>
      have hmem := mem_supplied_of_validated hidem hfound hall hentity hd
      exact Table.get?_eq_none_iff.1 hvalue (Table.mem_keys_mapKeys.2 ⟨key, hmem, hself⟩)

section Listing

theorem sameOutcome_evaluateAll {s t : Session} (h : s.Relists t) {values values' : Table Value}
    (hvalues : values.Relists values') (uris : List String) :
    SameOutcome ((evaluateAll s values uris).mapError .evaluation)
      ((evaluateAll t values' uris).mapError .evaluation) := by
  induction uris generalizing s t values values' with
  | nil => exact .values hvalues
  | cons uri rest ih =>
    rw [evaluateAll, evaluateAll, hvalues.contains_eq]
    split
    · exact ih h hvalues
    · rcases h.resolve uri with ⟨v, s', t', hs, ht, hst⟩ | ⟨e, e', s', t', hs, ht, he⟩
      · rw [hs, ht]
        exact ih hst (hvalues.insert uri v)
      · rw [hs, ht]
        exact .failure (.evaluation he)

theorem unsupplied?_congr {ns : Namespaces} {base base' : Table Value} {entities : Table Entity}
    (hfull : ∀ key ∈ entities.keys, ns.extend key = key)
    (h : (base.mapKeys ns.extend).Relists (base'.mapKeys ns.extend)) :
    Entity.unsupplied? ns base entities = Entity.unsupplied? ns base' entities := by
  have hkeys : ∀ uri, (∃ key ∈ base.keys, ns.extend key = uri) ↔
      ∃ key ∈ base'.keys, ns.extend key = uri := by
    intro uri
    rw [← Table.mem_keys_mapKeys, ← Table.mem_keys_mapKeys]
    exact h.mem_keys_iff
  rw [Entity.unsupplied?_eq, Entity.unsupplied?_eq]
  refine congrArg _ (List.find?_congr fun entry hentry => ?_)
  have hself := hfull entry.1 (List.mem_map_of_mem hentry)
  have hsupplied : Entity.isSupplied ns base entry.1 = Entity.isSupplied ns base' entry.1 := by
    rw [Bool.eq_iff_iff, Entity.isSupplied_iff hself, Entity.isSupplied_iff hself]
    exact hkeys entry.1
  rw [hsupplied]

variable {base : Table Value}

theorem prepare_congr
    (hidem : ∀ name, e.namespaces.extend (e.namespaces.extend name) = e.namespaces.extend name)
    (h : e.supplied.Relists (base.mapKeys e.namespaces.extend)) :
    ({ e with base } : Engine).prepare = e.prepare := by
  rw [prepare_eq, prepare_eq]
  change (e.discover.mapError ComputationError.discovery).bind _ = _
  cases hfound : e.discover with
  | error reason => rfl
  | ok found =>
    have hvalidate : ({ e with base } : Engine).validate found.result base =
        e.validate found.result e.base := by
      unfold validate
      rw [unsupplied?_congr (fun _ => full_of_discover hidem hfound) h]
    exact congrArg (Except.bind · fun _ =>
      ((e.orders found.result).mapError ComputationError.discovery).bind complete) hvalidate

theorem relists_new {ns : Namespaces} (hidem : ∀ name, ns.extend (ns.extend name) = ns.extend name)
    (orders : Table Order) {base base' : Table Value}
    (h : (base.mapKeys ns.extend).Relists (base'.mapKeys ns.extend)) :
    (Session.new ns orders (base.mapKeys ns.extend)).Relists
      (Session.new ns orders (base'.mapKeys ns.extend)) where
  namespaces := rfl
  orders := rfl
  values := by
    have hself : ∀ base : Table Value, (base.mapKeys ns.extend).mapKeys ns.extend =
        base.mapKeys ns.extend := fun base => Table.mapKeys_eq_self fun key hkey => by
      obtain ⟨name, -, rfl⟩ := Table.mem_keys_mapKeys.1 hkey
      exact hidem name
    intro key
    unfold Session.new
    dsimp only
    rw [hself, hself, h key]
  inProgress := rfl
  evaluations := rfl

/-- Base values that are the same under full forms have the same outcome. -/
theorem sameOutcome_compute
    (hidem : ∀ name, e.namespaces.extend (e.namespaces.extend name) = e.namespaces.extend name)
    (h : e.supplied.Relists (base.mapKeys e.namespaces.extend)) :
    SameOutcome e.compute ({ e with base } : Engine).compute := by
  have hcheck : ∀ orders, ({ e with base } : Engine).check orders = e.check orders := fun orders => by
    unfold check supplied
    rw [← h.contains_eq]
    rfl
  rw [compute_eq, compute_eq, prepare_congr hidem h]
  cases e.prepare with
  | error cause => exact .failure (.same cause)
  | ok orders =>
    simp only [Except.bind, hcheck]
    cases e.check orders with
    | error cause => exact .failure (.same cause)
    | ok _ => exact sameOutcome_evaluateAll (relists_new hidem orders h) h orders.keys

end Listing

/-- Validation of base values is exact: it fails for the first base entity without a value if there is
one, and then whatever the rules are; if it does not, no entity is found to be undefined later. So base
values that are the same under full forms have the same outcome. -/
theorem validation_exact
    (hidem : ∀ name, e.namespaces.extend (e.namespaces.extend name) = e.namespaces.extend name) :
    (∀ entity, e.compute = .error (.missingBase entity) ↔
      ∃ found before after, e.discover = .ok found ∧
        found.result.entries = before ++ (entity.uri, entity) :: after ∧
        e.Lacks entity ∧ ∀ entry ∈ before, ¬ e.Lacks entry.2) ∧
    (∀ key orders, e.compute = .error (.evaluation (.undefinedOrder key orders)) →
      ∀ found, e.discover = .ok found → key ∉ found.result.keys) ∧
    ∀ base : Table Value, e.supplied.Relists (base.mapKeys e.namespaces.extend) →
      SameOutcome e.compute ({ e with base } : Engine).compute := by
  refine ⟨fun entity => ?_, fun key orders h found hfound => undefined_not_found hidem h hfound,
    fun base h => sameOutcome_compute hidem h⟩
  rw [compute_eq_missingBase_iff]
  constructor
  · rintro ⟨found, hfound, hmissing⟩
    obtain ⟨before, after, hsplit, hlacks, hbefore⟩ :=
      (unsupplied?_eq_some_iff hidem hfound).1 hmissing
    exact ⟨found, before, after, hfound, hsplit, hlacks, hbefore⟩
  · rintro ⟨found, before, after, hfound, hsplit, hlacks, hbefore⟩
    exact ⟨found, hfound, (unsupplied?_eq_some_iff hidem hfound).2
      ⟨before, after, hsplit, hlacks, hbefore⟩⟩

/-- An engine with the base entity `kno:a` and the derived entity `kno:b`, twice as much. -/
def doubling (base : Table Value) : Engine :=
  let type := Namespaces.standard.extend Entity.typePredicate
  let store : Store := ⟨.standard, [
    ⟨"http://knorke/b", type, .text "kno:StatisticValue"⟩,
    ⟨"http://knorke/b", "http://knorke/computationOrder", .text "o"⟩,
    ⟨"o", "http://knorke/_1", .text "[kno:a]*2"⟩,
    ⟨"http://knorke/a", type, .text "kno:StatisticValue"⟩]⟩
  new store base Settings.default (some .standard)

/-- Without a value for it, `kno:a` is missed; the value may be supplied under a short or a full
form. -/
theorem validation_exact_doubling :
    (∃ entity, (doubling Table.empty).compute = .error (.missingBase entity) ∧
      (doubling Table.empty).Lacks entity) ∧
    SameOutcome (doubling (Table.ofList [("kno:a", .int 1)])).compute
      (doubling (Table.ofList [("http://knorke/a", .int 1)])).compute := by
  constructor
  · have hrun : (doubling Table.empty).failsBy ComputationError.isMissingBase = true := by
      decide +kernel
    obtain ⟨cause, hfail, hmissing⟩ := exists_of_failsBy hrun
    obtain ⟨entity, rfl⟩ := ComputationError.exists_of_isMissingBase hmissing
    obtain ⟨-, -, -, -, -, hlacks, -⟩ := ((validation_exact (e := doubling Table.empty)
      Namespaces.standard_extend_extend).1 entity).1 hfail
    exact ⟨entity, hfail, hlacks⟩
  · have hshort : Namespaces.standard.extend "kno:a" = "http://knorke/a" := by decide +kernel
    have hfull : Namespaces.standard.extend "http://knorke/a" = "http://knorke/a" := by
      decide +kernel
    refine (validation_exact (e := doubling (Table.ofList [("kno:a", .int 1)]))
      Namespaces.standard_extend_extend).2.2 (Table.ofList [("http://knorke/a", .int 1)]) ?_
    change (Table.ofList [(Namespaces.standard.extend "kno:a", Value.int 1)]).Relists
      (Table.ofList [(Namespaces.standard.extend "http://knorke/a", Value.int 1)])
    rw [hshort, hfull]
    exact fun _ => rfl

end Engine
end FormulaGraph
