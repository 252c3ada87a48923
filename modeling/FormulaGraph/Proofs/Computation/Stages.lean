import FormulaGraph.Engine
import FormulaGraph.Proofs.Lists
import FormulaGraph.Proofs.Table

/-! The stages of a computation: which entities are found, which orders are evaluated, and when a
computation gives values. -/
namespace FormulaGraph

namespace Entity

variable {store : Store} {ns : Namespaces} {entities : Table Entity}

theorem uri_of_ofRows {orderPredicate : Value} {sheet : Sheet} {uri : String}
    {found : Reported Entity} (h : ofRows ns orderPredicate sheet uri = .ok found) :
    found.result.uri = uri := by
  simp only [ofRows, bind, Except.bind, pure, Except.pure] at h
  split at h
  · contradiction
  split at h
  · contradiction
  · rw [← Except.ok.inj h]

/-- An entity was read under its identifier, the full form of some name, from what is said about the
entities of the type. -/
theorem exists_of_discover {vocabulary : Vocabulary} {found : Reported (Table Entity)}
    (h : discover store ns vocabulary = .ok found) {key : String} {entity : Entity}
    (hget : found.result.get? key = some entity) :
    ∃ sheet name report, ask store (discoveryPatterns vocabulary.entityType) = .ok sheet ∧
      ofRows ns vocabulary.orderPredicate sheet (ns.extend name) = .ok report ∧
      report.result = entity ∧ ns.extend name = key := by
  simp only [discover, bind, Except.bind, pure, Except.pure] at h
  split at h
  · contradiction
  rename_i sheet hsheet
  split at h
  · contradiction
  rename_i reports hreports
  obtain rfl := Except.ok.inj h
  rw [Table.get?_ofList] at hget
  obtain ⟨report, hreport, hentry⟩ := List.mem_map.1 (Table.mem_of_lastOf hget)
  obtain ⟨hkey, hentity⟩ := Prod.mk.inj hentry
  obtain ⟨name, -, hname⟩ := exists_of_mapM_ok hreports hreport
  exact ⟨sheet, name, report, hsheet, hname, hentity, (uri_of_ofRows hname).symm.trans hkey⟩

theorem full_of_discover {vocabulary : Vocabulary} {found : Reported (Table Entity)}
    (h : discover store ns vocabulary = .ok found) {key : String} (hkey : key ∈ found.result.keys) :
    ∃ name, ns.extend name = key := by
  obtain ⟨entity, hget⟩ := Table.mem_keys_iff.1 hkey
  obtain ⟨-, name, -, -, -, -, hfull⟩ := exists_of_discover h hget
  exact ⟨name, hfull⟩

def derived (entities : Table Entity) : List String :=
  entities.keys.filter fun uri => (entities.get? uri).any isDerived

theorem mem_derived {key : String} : key ∈ derived entities ↔
    ∃ entity, entities.get? key = some entity ∧ entity.isDerived = true := by
  rw [derived, List.mem_filter, Table.mem_keys_iff, Option.any_eq_true]
  constructor
  · exact fun h => h.2
  · rintro ⟨entity, he, hd⟩
    exact ⟨⟨entity, he⟩, entity, he, hd⟩

/-- The orders of entities are those of the derived ones, under their full forms. -/
theorem exists_orderFor_of_orders {orders : Table (Option (List String))} {key : String}
    {texts : Option (List String)} (h : Entity.orders entities store ns = .ok orders)
    (hget : orders.get? key = some texts) :
    ∃ uri ∈ derived entities, ns.extend uri = key ∧ ∃ report?,
      orderFor entities store ns uri = .ok report? ∧ texts = report?.map (·.result) := by
  simp only [Entity.orders, bind, Except.bind, pure, Except.pure] at h
  split at h
  · contradiction
  rename_i found hfound
  obtain rfl := Except.ok.inj h
  rw [Table.get?_ofList] at hget
  obtain ⟨uri, huri, hentry⟩ := exists_of_mapM_ok hfound (Table.mem_of_lastOf hget)
  split at hentry
  · contradiction
  rename_i report? hreport
  obtain ⟨hkey, htexts⟩ := Prod.mk.inj (Except.ok.inj hentry)
  exact ⟨uri, huri, hkey, report?, hreport, htexts.symm⟩

theorem entries_of_orders {orders : Table (Option (List String))}
    (hfull : ∀ key ∈ entities.keys, ns.extend key = key)
    (h : Entity.orders entities store ns = .ok orders) :
    orders.keys = derived entities ∧ ∀ key texts, orders.get? key = some texts →
      ∃ report?, orderFor entities store ns key = .ok report? ∧
        texts = report?.map (·.result) := by
  have hsub : ∀ key ∈ derived entities, ns.extend key = key := fun key hkey =>
    hfull key (List.mem_of_mem_filter hkey)
  constructor
  · simp only [Entity.orders, bind, Except.bind, pure, Except.pure] at h
    split at h
    · contradiction
    rename_i found hfound
    obtain rfl := Except.ok.inj h
    have hnames : found.map Prod.fst = derived entities := by
      have hmap := map_eq_of_mapM_ok hfound (g := Prod.fst) (k := ns.extend) ?_
      · rw [hmap]
        exact (List.map_congr_left hsub).trans (List.map_id _)
      · intro uri entry hentry
        split at hentry
        · contradiction
        · rw [← Except.ok.inj hentry]
    rw [Table.keys, Table.entries_ofList (hnames ▸ entities.nodup_keys.filter _), hnames]
  · intro key texts hget
    obtain ⟨uri, huri, rfl, hreport⟩ := exists_orderFor_of_orders h hget
    rwa [hsub uri huri]

theorem exists_rulesOf_of_orderFor {uri : String} {report : Reported (List String)}
    (h : orderFor entities store ns uri = .ok (some report)) :
    ∃ entity order, entities.get? (ns.extend uri) = some entity ∧
      entity.computationOrder = some order ∧ rulesOf store ns entity.uri order = .ok report := by
  unfold orderFor at h
  split at h
  · rename_i owner order hbind
    obtain ⟨entity, hentity, hmap⟩ := Option.bind_eq_some_iff.1 hbind
    obtain ⟨_, horder, hpair⟩ := Option.map_eq_some_iff.1 hmap
    obtain ⟨rfl, rfl⟩ := Prod.mk.inj hpair
    refine ⟨entity, _, hentity, horder, ?_⟩
    cases hread : rulesOf store ns entity.uri _ with
    | error cause =>
      rw [hread] at h
      contradiction
    | ok read =>
      rw [hread] at h
      obtain rfl := Option.some.inj (Except.ok.inj h)
      rfl
  · exact absurd (Except.ok.inj h) (Option.some_ne_none report).symm

/-- The order of an entity depends on the full form of its identifier only. -/
theorem computationOrder_of_ofRows {orderPredicate : Value} {sheet : Sheet} {uri uri' : String}
    {found found' : Reported Entity} (h : ofRows ns orderPredicate sheet uri = .ok found)
    (h' : ofRows ns orderPredicate sheet uri' = .ok found') (hfull : ns.extend uri = ns.extend uri') :
    found.result.computationOrder = found'.result.computationOrder := by
  have hbuild : ∀ options, PropertyMap.build ns options {} sheet (.text uri) =
      PropertyMap.build ns options {} sheet (.text uri') := by
    intro options
    have hsubject : ns.extendValue (.text uri) = ns.extendValue (.text uri') :=
      congrArg Value.text hfull
    unfold PropertyMap.build
    rw [hsubject]
  have horder : (ofRows ns orderPredicate sheet uri).map (·.result.computationOrder) =
      (ofRows ns orderPredicate sheet uri').map (·.result.computationOrder) := by
    simp only [ofRows, hbuild, bind, Except.bind, pure, Except.pure]
    split
    · rfl
    · split <;> rfl
  rw [h, h'] at horder
  exact Except.ok.inj horder

/-- The rules of an order do not depend on whose it is. -/
theorem result_of_rulesOf {uri uri' : String} {order : Value} {report report' : Reported (List String)}
    (h : rulesOf store ns uri order = .ok report) (h' : rulesOf store ns uri' order = .ok report') :
    report.result = report'.result := by
  have hresult : (rulesOf store ns uri order).map (·.result) =
      (rulesOf store ns uri' order).map (·.result) := by
    simp only [rulesOf, bind, Except.bind, pure, Except.pure]
    split
    · rfl
    split
    · rfl
    · split <;> rfl
  rw [h, h'] at hresult
  exact Except.ok.inj hresult

theorem exists_of_orders {orders : Table (Option (List String))} {key : String} {rules : List String}
    (h : Entity.orders entities store ns = .ok orders) (hget : orders.get? key = some (some rules)) :
    ∃ entity order report, entities.get? key = some entity ∧
      entity.computationOrder = some order ∧ rulesOf store ns entity.uri order = .ok report ∧
      report.result = rules := by
  obtain ⟨uri, -, rfl, report?, hreport, htexts⟩ := exists_orderFor_of_orders h hget
  obtain ⟨report, rfl, hresult⟩ := Option.map_eq_some_iff.1 htexts.symm
  obtain ⟨entity, order, hentity, horder, hrules⟩ := exists_rulesOf_of_orderFor hreport
  exact ⟨entity, order, report, hentity, horder, hrules, hresult⟩

end Entity

section Except

variable {α β ε δ : Type} {x : Except ε α} {f : α → Except ε β} {g : ε → δ}

theorem exists_ok_of_map {γ : Type} {h : α → γ} {c : γ} (hx : x.toOption.map h = some c) :
    ∃ a, x = .ok a ∧ h a = c := by
  cases x with
  | error e => contradiction
  | ok a => exact ⟨a, rfl, Option.some.inj hx⟩

theorem bind_eq_ok_iff {b : β} : x.bind f = .ok b ↔ ∃ a, x = .ok a ∧ f a = .ok b := by
  cases x <;> simp [Except.bind]

theorem bind_eq_error_iff {cause : ε} :
    x.bind f = .error cause ↔ x = .error cause ∨ ∃ a, x = .ok a ∧ f a = .error cause := by
  cases x <;> simp [Except.bind]

theorem mapError_eq_ok_iff {a : α} : x.mapError g = .ok a ↔ x = .ok a := by
  cases x <;> simp [Except.mapError]

theorem mapError_eq_error_iff {cause : δ} :
    x.mapError g = .error cause ↔ ∃ reason, x = .error reason ∧ cause = g reason := by
  cases x <;> simp [Except.mapError, eq_comm]

end Except

namespace ComputationError

def isMissingBase : ComputationError → Bool
  | missingBase _ => true
  | _ => false

theorem exists_of_isMissingBase {cause : ComputationError} (h : cause.isMissingBase = true) :
    ∃ entity, cause = .missingBase entity := by
  cases cause with
  | missingBase entity => exact ⟨entity, rfl⟩
  | _ => contradiction

def isOverflow : ComputationError → Bool
  | evaluation (.arithmetic .overflow) => true
  | _ => false

theorem eq_of_isOverflow {cause : ComputationError} (h : cause.isOverflow = true) :
    cause = .evaluation (.arithmetic .overflow) := by
  unfold isOverflow at h
  split at h
  · rfl
  · contradiction

end ComputationError

namespace Engine

variable {e : Engine}

theorem entries_of_complete {found : Table (Option (List String))} {orders : Table Order}
    (h : complete found = .ok orders) : orders.keys = found.keys ∧
      ∀ key rules, orders.get? key = some rules →
        ∃ texts, found.get? key = some (some texts) ∧ rules = texts.map Value.text := by
  unfold complete at h
  cases hpairs : found.entries.mapM completeEntry with
  | error cause => rw [hpairs] at h; contradiction
  | ok pairs =>
  rw [hpairs] at h
  obtain rfl := Except.ok.inj h
  have hstep : ∀ entry pair, completeEntry entry = .ok pair →
      pair.1 = entry.1 ∧ ∃ texts, entry.2 = some texts ∧ pair.2 = texts.map Value.text := by
    rintro ⟨uri, rules⟩ pair hpair
    cases rules with
    | none => contradiction
    | some rules =>
      obtain rfl := Except.ok.inj hpair
      exact ⟨rfl, rules, rfl, rfl⟩
  have hnames : pairs.map Prod.fst = found.keys :=
    map_eq_of_mapM_ok hpairs fun entry pair hpair => (hstep entry pair hpair).1
  have hentries : (Table.ofList pairs).entries = pairs :=
    Table.entries_ofList (hnames ▸ found.nodup_keys)
  refine ⟨by rw [Table.keys, hentries, hnames], ?_⟩
  intro key rules hget
  rw [Table.get?_eq_some_iff, hentries] at hget
  obtain ⟨entry, hentry, hpair⟩ := exists_of_mapM_ok hpairs hget
  obtain ⟨hkey, texts, htexts, hrules⟩ := hstep entry _ hpair
  refine ⟨texts, Table.get?_eq_some_iff.2 ?_, hrules⟩
  change key = entry.1 at hkey
  rw [hkey, ← htexts]
  exact hentry

theorem full_of_discover
    (hidem : ∀ name, e.namespaces.extend (e.namespaces.extend name) = e.namespaces.extend name)
    {found : Reported (Table Entity)} (h : e.discover = .ok found) {key : String}
    (hkey : key ∈ found.result.keys) : e.namespaces.extend key = key := by
  obtain ⟨name, rfl⟩ := Entity.full_of_discover h hkey
  exact hidem name

theorem validate_eq_ok_iff {entities : Table Entity} {base : Table Value} :
    e.validate entities base = .ok () ↔
      Entity.unsupplied? e.namespaces base entities = none := by
  unfold validate
  cases Entity.unsupplied? e.namespaces base entities <;> simp

theorem prepare_eq : e.prepare = (e.discover.mapError .discovery).bind fun found =>
    (e.validate found.result e.base).bind fun _ =>
      ((e.orders found.result).mapError .discovery).bind complete := by
  have hdiscovery : ∀ {α : Type} (x : Except DiscoveryError α),
      ofDiscovery x = x.mapError .discovery := fun x => by cases x <;> rfl
  unfold prepare
  simp only [hdiscovery]
  rfl

theorem prepare_eq_ok_iff {orders : Table Order} : e.prepare = .ok orders ↔
    ∃ found, e.discover = .ok found ∧
      Entity.unsupplied? e.namespaces e.base found.result = none ∧
      ∃ texts, e.orders found.result = .ok texts ∧ complete texts = .ok orders := by
  simp only [prepare_eq, bind_eq_ok_iff, mapError_eq_ok_iff, Unique.exists_iff,
    ← validate_eq_ok_iff]

theorem prepare_eq_error_iff {cause : ComputationError} : e.prepare = .error cause ↔
    (∃ reason, e.discover = .error reason ∧ cause = .discovery reason) ∨
    ∃ found, e.discover = .ok found ∧
      ((∃ entity, Entity.unsupplied? e.namespaces e.base found.result = some entity ∧
          cause = .missingBase entity) ∨
        Entity.unsupplied? e.namespaces e.base found.result = none ∧
          ((∃ reason, e.orders found.result = .error reason ∧ cause = .discovery reason) ∨
            ∃ texts, e.orders found.result = .ok texts ∧ complete texts = .error cause)) := by
  simp only [prepare_eq, bind_eq_error_iff, mapError_eq_error_iff, mapError_eq_ok_iff]
  refine or_congr Iff.rfl (exists_congr fun found => and_congr_right fun _ => ?_)
  unfold validate
  cases Entity.unsupplied? e.namespaces e.base found.result <;> simp [eq_comm]

/-- What the orders to evaluate are: those of the derived entities. -/
theorem entries_of_prepare {orders : Table Order} (h : e.prepare = .ok orders)
    (hidem : ∀ name, e.namespaces.extend (e.namespaces.extend name) = e.namespaces.extend name) :
    ∃ found, e.discover = .ok found ∧
      (∀ key ∈ found.result.keys, e.namespaces.extend key = key) ∧
      orders.keys = Entity.derived found.result ∧
      ∀ key rules, orders.get? key = some rules → ∃ report,
        Entity.orderFor found.result e.store e.namespaces key = .ok (some report) ∧
        rules = report.result.map Value.text := by
  obtain ⟨found, hfound, -, texts, htexts, hcomplete⟩ := prepare_eq_ok_iff.1 h
  have hfull : ∀ key ∈ found.result.keys, e.namespaces.extend key = key := fun _ =>
    full_of_discover hidem hfound
  obtain ⟨hkeys, hget⟩ := Entity.entries_of_orders hfull htexts
  obtain ⟨hkeys', hget'⟩ := entries_of_complete hcomplete
  refine ⟨found, hfound, hfull, hkeys'.trans hkeys, fun key rules hrules => ?_⟩
  obtain ⟨lines, hlines, hrules⟩ := hget' key rules hrules
  obtain ⟨report?, hreport, heq⟩ := hget key _ hlines
  cases report? with
  | none => contradiction
  | some report => exact ⟨report, hreport, by rw [hrules, Option.some.inj heq]⟩

/-- Identifiers with one full form that have orders to evaluate have the same rules. -/
theorem rules_eq_of_prepare {orders : Table Order} (h : e.prepare = .ok orders) {key key' : String}
    {rules rules' : Order} (hget : orders.get? key = some rules)
    (hget' : orders.get? key' = some rules')
    (hfull : e.namespaces.extend key = e.namespaces.extend key') : rules = rules' := by
  obtain ⟨found, hfound, -, texts, htexts, hcomplete⟩ := prepare_eq_ok_iff.1 h
  obtain ⟨-, hentries⟩ := entries_of_complete hcomplete
  obtain ⟨lines, hlines, rfl⟩ := hentries key rules hget
  obtain ⟨lines', hlines', rfl⟩ := hentries key' rules' hget'
  obtain ⟨entity, order, report, hentity, horder, hreport, rfl⟩ := Entity.exists_of_orders htexts hlines
  obtain ⟨entity', order', report', hentity', horder', hreport', rfl⟩ :=
    Entity.exists_of_orders htexts hlines'
  obtain ⟨sheet, name, read, hsheet, hread, rfl, rfl⟩ := Entity.exists_of_discover hfound hentity
  obtain ⟨sheet', name', read', hsheet', hread', rfl, rfl⟩ :=
    Entity.exists_of_discover hfound hentity'
  obtain rfl := Except.ok.inj (hsheet.symm.trans hsheet')
  rw [Entity.computationOrder_of_ofRows hread hread' hfull, horder'] at horder
  obtain rfl := Option.some.inj horder
  rw [Entity.result_of_rulesOf hreport hreport']

theorem unknownOrder_of_complete {found : Table (Option (List String))} {cause : ComputationError}
    (h : complete found = .error cause) :
    ∃ uri, (uri, none) ∈ found.entries ∧ cause = .unknownOrder uri := by
  unfold complete at h
  cases hpairs : found.entries.mapM completeEntry with
  | ok pairs =>
    rw [hpairs] at h
    contradiction
  | error reason =>
    rw [hpairs] at h
    obtain rfl := Except.error.inj h
    obtain ⟨⟨uri, rules⟩, hmem, hfail⟩ := exists_of_mapM_error hpairs
    cases rules with
    | some rules => contradiction
    | none => exact ⟨uri, hmem, (Except.error.inj hfail).symm⟩

theorem cyclicOrders_of_check {orders : Table Order} {cause : ComputationError}
    (h : e.check orders = .error cause) : ∃ cycles, cause = .cyclicOrders cycles := by
  unfold check at h
  split at h
  · split at h
    · contradiction
    · exact ⟨_, (Except.error.inj h).symm⟩
  · contradiction

theorem compute_eq : e.compute = e.prepare.bind fun orders => (e.check orders).bind fun _ =>
    (evaluateOrders e.namespaces orders e.supplied).mapError .evaluation := by
  unfold compute
  cases e.prepare with
  | error cause => rfl
  | ok orders =>
    simp only [bind, Except.bind]
    cases e.check orders with
    | error cause => rfl
    | ok _ => cases evaluateOrders e.namespaces orders e.supplied <;> rfl

theorem compute_eq_error_iff {cause : ComputationError} : e.compute = .error cause ↔
    e.prepare = .error cause ∨ ∃ orders, e.prepare = .ok orders ∧
      (e.check orders = .error cause ∨ e.check orders = .ok () ∧
        ∃ reason, evaluateOrders e.namespaces orders e.supplied = .error reason ∧
          cause = .evaluation reason) := by
  simp only [compute_eq, bind_eq_error_iff, mapError_eq_error_iff, Unique.exists_iff]

theorem compute_eq_ok_iff {values : Table Value} : e.compute = .ok values ↔
    ∃ orders, e.prepare = .ok orders ∧ e.check orders = .ok () ∧
      evaluateOrders e.namespaces orders e.supplied = .ok values := by
  simp only [compute_eq, bind_eq_ok_iff, mapError_eq_ok_iff, Unique.exists_iff]

def failsBy (e : Engine) (kind : ComputationError → Bool) : Bool :=
  match e.compute with
  | .error cause => kind cause
  | .ok _ => false

theorem exists_of_failsBy {kind : ComputationError → Bool} (h : e.failsBy kind = true) :
    ∃ cause, e.compute = .error cause ∧ kind cause = true := by
  unfold failsBy at h
  cases hrun : e.compute with
  | ok values =>
    rw [hrun] at h
    contradiction
  | error cause =>
    rw [hrun] at h
    exact ⟨cause, rfl, h⟩

end Engine
end FormulaGraph
