import FormulaGraph.Proofs.Computation.Stages
import FormulaGraph.Proofs.Query.Answer
import FormulaGraph.Proofs.Query.Grouping

/-! Discovery in stores of texts. No query is refused and no property map is; the one thing that can
fail is to read the number of a step. -/
namespace FormulaGraph

open Column (isText)

def Store.Textual (s : Store) : Prop := ∀ t ∈ s.triples, isText t.object = true

namespace Store

variable {s : Store} {patterns : List Pattern} {choice : List Triple}

theorem Textual.comparable (h : s.Textual) : s.Comparable (isText · = true) := fun t ht =>
  (isText_comparisonKey _ _).trans (h t ht)

theorem Textual.isText_cells (h : s.Textual) {t : Triple} (ht : t ∈ s.triples) {v : Value}
    (hv : v ∈ t.cells) : isText v = true := by
  have hcases : v = .text t.subject ∨ v = .text t.predicate ∨ v = t.object := by
    simpa [Triple.cells] using hv
  obtain rfl | rfl | rfl := hcases
  · rfl
  · rfl
  · exact h t ht

def Holds (s : Store) (v : Value) : Prop := ∃ t ∈ s.triples, v ∈ t.cells

theorem Textual.isText_of_holds (h : s.Textual) {v : Value} (hv : s.Holds v) : isText v = true := by
  obtain ⟨t, ht, hv⟩ := hv
  exact h.isText_cells ht hv

theorem holds_bindings {q : Pattern} {t : Triple} (ht : t ∈ s.triples) {b : String × Value}
    (hb : b ∈ q.bindings t) : s.Holds b.2 := by
  obtain ⟨p, hp, hpb⟩ := List.mem_filterMap.1 hb
  obtain ⟨x, -, rfl⟩ := Option.map_eq_some_iff.1 hpb
  exact ⟨t, ht, (List.of_mem_zip hp).2⟩

theorem Solves.holds (h : s.Solves patterns choice) {v : Value}
    (hv : v ∈ Pattern.answerRow patterns choice) : s.Holds v := by
  obtain ⟨x, hx, rfl⟩ := List.mem_map.1 hv
  have hmem : (x, firstUnder (Pattern.bound patterns choice) x) ∈ Pattern.bound patterns choice := by
    refine firstUnder_mem ?_
    rwa [Pattern.names_bound h.length_eq, ← Pattern.mem_allVars]
  obtain ⟨p, hp, hpb⟩ := List.mem_flatMap.1 hmem
  exact holds_bindings ((List.forall₂_iff_zip.1 h.stored).2 hp).1 hpb

/-- Rows of full length that show nothing but cells of a store. -/
structure Shows (s : Store) (sheet : Sheet) : Prop where
  length : ∀ row ∈ sheet.rows, row.length = sheet.columns.length
  holds : ∀ row ∈ sheet.rows, ∀ v ∈ row, s.Holds v

theorem Shows.holds_cell {sheet : Sheet} (h : s.Shows sheet) {row : List Value}
    (hrow : row ∈ sheet.rows) {name : String} {place : Nat} (hplace : sheet.column? name = some place) :
    s.Holds (Sheet.cell row place) := by
  have hlt : place < row.length := by
    rw [h.length row hrow]
    exact (List.findIdx?_eq_some_iff_getElem.1 hplace).1
  refine h.holds row hrow _ ?_
  unfold Sheet.cell
  rw [List.getD_eq_getElem _ _ hlt]
  exact List.getElem_mem hlt

end Store

namespace PropertyMap

variable {ns : Namespaces}

theorem exists_column {sheet : Sheet} {name : String} (h : name ∈ sheet.columns) :
    ∃ n, sheet.column? name = some n := by
  cases hplace : sheet.column? name with
  | none =>
    have hall := List.findIdx?_eq_none_iff.1 hplace name h
    simp at hall
  | some n => exact ⟨n, rfl⟩

theorem exists_build (ns : Namespaces) (options : PropertyOptions) {s : Store} (hs : s.Textual)
    {sheet : Sheet} (hsheet : s.Shows sheet) (hp : "p" ∈ sheet.columns) (ho : "o" ∈ sheet.columns)
    {subject : Value} (hsubject : isText subject = true)
    (hoptions : options.withSubject = false) :
    ∃ m, build ns options {} sheet subject = .ok m ∧
      m.Gathers fun k => ∃ v, s.Holds v ∧ k = format ns options.shortPredicates v := by
  obtain ⟨name, rfl⟩ := exists_text hsubject
  obtain ⟨p, hp⟩ := exists_column hp
  obtain ⟨o, ho⟩ := exists_column ho
  have hrows : rowsOf sheet {} (.text (ns.extend name)) = _ := rowsOf_eq hp ho (ns.extend name)
  have hpairs : ∀ pair ∈ (subjectRows sheet {} (ns.extend name)).map
      (fun row => (Sheet.cell row p, Sheet.cell row o)), s.Holds pair.1 ∧ s.Holds pair.2 := by
    intro pair hpair
    obtain ⟨row, hmem, rfl⟩ := List.mem_map.1 hpair
    have hrow := mem_rows_of_subjectRows hmem
    exact ⟨hsheet.holds_cell hrow hp, hsheet.holds_cell hrow ho⟩
  refine ⟨_, build_eq hrows (fun pair hpair => ?_) hoptions, gathers_ofPairs fun pair hpair => ?_⟩
  · obtain ⟨hkey, hobject⟩ := hpairs pair hpair
    exact ⟨hs.isText_of_holds hkey, hs.isText_of_holds hobject⟩
  · obtain ⟨hkey, hobject⟩ := hpairs pair hpair
    exact ⟨hs.isText_of_holds hobject, _, hkey, rfl⟩

end PropertyMap

/-- Texts that entities can be asked for by: no variable stands for their type that is named like the
keys of a join. -/
structure Vocabulary.Textual (v : Vocabulary) : Prop where
  entityType : isText v.entityType = true
  orderPredicate : isText v.orderPredicate = true
  notKey : ∀ name, PatternTerm.ofValue v.entityType = .var name → ¬ "__key_".toList <+: name.toList

namespace Store

variable {s : Store} {patterns : List Pattern} {rows : List (List Value)}

theorem shows_answer
    (h : if Pattern.allVars patterns = [] then rows = [] else s.Exact patterns rows) :
    s.Shows ⟨Pattern.allVars patterns, rows⟩ := by
  split at h
  · subst h
    exact ⟨by simp, by simp⟩
  · refine ⟨fun row hrow => ?_, fun row hrow v hv => ?_⟩
    · obtain ⟨choice, -, rfl⟩ := h.sound row hrow
      exact List.length_map _
    · obtain ⟨choice, hchoice, rfl⟩ := h.sound row hrow
      exact hchoice.holds hv

theorem shows_matched (s : Store) (q : Pattern) :
    s.Shows ⟨q.vars, Sheet.dropRepeated ((s.matched q).map q.row)⟩ := by
  refine ⟨fun row hrow => ?_, fun row hrow v hv => ?_⟩
  · obtain ⟨t, -, rfl⟩ := List.mem_map.1 (mem_of_mem_keepFirst hrow)
    exact List.length_map _
  · obtain ⟨t, ht, rfl⟩ := List.mem_map.1 (mem_of_mem_keepFirst hrow)
    obtain ⟨x, hx, rfl⟩ := List.mem_map.1 hv
    have hmem : (x, firstUnder (q.bindings t) x) ∈ q.bindings t := by
      refine firstUnder_mem ?_
      rw [Pattern.names_bindings]
      exact List.mem_eraseDups.1 hx
    exact holds_bindings (List.mem_of_mem_filter ht) hmem

end Store

theorem Pattern.isText_of_ofTriple {ns : Namespaces} {a b c : Value} (ha : isText a = true)
    (hb : isText b = true) (hc : isText c = true) :
    ∀ v ∈ (ofTriple (a, b, c)).constants ns, isText v = true := by
  have hall : ∀ v ∈ [a, b, c], isText v = true := by simp [ha, hb, hc]
  exact Store.constants_ofTriple fun v hv _ => (isText_comparisonKey ns v).trans (hall v hv)

namespace Entity

variable {store : Store} {ns : Namespaces} {vocabulary : Vocabulary} {sheet : Sheet}

theorem names_discoveryPatterns (entityType : Value) :
    (discoveryPatterns entityType).flatMap Pattern.names =
      ["s", "p", "o", "s"] ++ (PatternTerm.ofValue entityType).var?.toList := by
  have htype : PatternTerm.ofValue (.text typePredicate) = .const (.text typePredicate) := rfl
  unfold discoveryPatterns
  rw [htype]
  cases PatternTerm.ofValue entityType <;> rfl

theorem discoveryPatterns_eq (entityType : Value) : discoveryPatterns entityType =
    [.ofTriple (.text "?s", .text "?p", .text "?o"),
      .ofTriple (.text "?s", .text typePredicate, entityType)] := rfl

theorem isText_of_discoveryPatterns {entityType : Value} (htype : isText entityType = true) :
    ∀ q ∈ discoveryPatterns entityType, ∀ v ∈ q.constants ns, isText v = true := by
  rw [discoveryPatterns_eq, List.forall_mem_cons, List.forall_mem_singleton]
  exact ⟨Pattern.isText_of_ofTriple rfl rfl rfl, Pattern.isText_of_ofTriple rfl rfl htype⟩

theorem isText_of_orderPattern {order : Value} (horder : isText order = true) :
    ∀ v ∈ (orderPattern order).constants ns, isText v = true := by
  have horder' : orderPattern order = .ofTriple (order, .text "?p", .text "?o") := rfl
  rw [horder']
  exact Pattern.isText_of_ofTriple horder rfl rfl

theorem exists_ask_entities (hs : store.Textual) (hv : vocabulary.Textual) :
    ∃ sheet, ask store (discoveryPatterns vocabulary.entityType) = .ok sheet ∧
      store.Shows sheet ∧ "p" ∈ sheet.columns ∧ "o" ∈ sheet.columns := by
  have hvars : ∀ x, x ∈ Pattern.allVars (discoveryPatterns vocabulary.entityType) ↔
      x ∈ ["s", "p", "o", "s"] ∨ (PatternTerm.ofValue vocabulary.entityType).var? = some x := by
    intro x
    rw [Pattern.mem_allVars, names_discoveryPatterns, List.mem_append, Option.mem_toList]
  have hnames : ∀ x ∈ Pattern.allVars (discoveryPatterns vocabulary.entityType),
      ¬ "__key_".toList <+: x.toList := by
    intro x hx
    rcases (hvars x).1 hx with hx | hx
    · have hnone : ∀ y ∈ ["s", "p", "o", "s"], ¬ "__key_".toList <+: y.toList := by decide
      exact hnone x hx
    · cases hterm : PatternTerm.ofValue vocabulary.entityType with
      | var name =>
        rw [hterm] at hx
        exact Option.some.inj hx ▸ hv.notKey name hterm
      | const v =>
        rw [hterm] at hx
        contradiction
  obtain ⟨rows, hsolve, -, hrows⟩ := Store.solveBy_eq Comparer.byEquality_byKind hs.comparable
    (isText_of_discoveryPatterns hv.entityType) fun x _ y hy => Store.keyName_ne (hnames y hy)
  refine ⟨_, ?_, Store.shows_answer hrows, (hvars _).2 (Or.inl (by simp)),
    (hvars _).2 (Or.inl (by simp))⟩
  unfold ask Store.solve
  rw [hsolve]

theorem exists_ask_order (hs : store.Textual) {order : Value} (horder : isText order = true) :
    ∃ sheet, ask store [orderPattern order] = .ok sheet ∧
      store.Shows sheet ∧ "p" ∈ sheet.columns ∧ "o" ∈ sheet.columns := by
  have hvar : ∀ x ∈ ["p", "o"], x ∈ (orderPattern order).vars := by
    simp [Pattern.vars, orderPattern, Pattern.terms, PatternTerm.var?]
  have hp := hvar "p" (by simp)
  have ho := hvar "o" (by simp)
  have hsolve := Store.solveBy_single Comparer.byEquality_byKind hs.comparable
    (isText_of_orderPattern horder) (List.ne_nil_of_mem hp)
  refine ⟨_, ?_, store.shows_matched (orderPattern order), hp, ho⟩
  unfold ask Store.solve
  rw [hsolve]

theorem ofRows_eq_ok_iff {orderPredicate : Value} {uri : String} {found : Reported Entity} :
    ofRows ns orderPredicate sheet uri = .ok found ↔
      ∃ properties order, PropertyMap.build ns { withSubject := false } {} sheet (.text uri) = .ok properties ∧
        PropertyMap.property ns properties orderPredicate = .ok order ∧
        found = ⟨⟨uri, order.map fun v => ns.extendValue (firstOf v),
          PropertyMap.eraseProperty ns properties orderPredicate⟩, (orderWarning? uri order).toList⟩ := by
  simp only [ofRows, bind, Except.bind, pure, Except.pure]
  cases PropertyMap.build ns { withSubject := false } {} sheet (.text uri) with
  | error cause => simp [ofProperty]
  | ok properties =>
    dsimp only [ofProperty]
    cases hproperty : PropertyMap.property ns properties orderPredicate with
    | error cause => simp [hproperty]
    | ok order => simp [hproperty, eq_comm]

variable (ns) in
/-- What rows of texts say about an entity; its computation order, if it has one, is a text. -/
theorem exists_ofRows (hs : store.Textual) (hsheet : store.Shows sheet) (hp : "p" ∈ sheet.columns)
    (ho : "o" ∈ sheet.columns) {orderPredicate : Value} (hpredicate : isText orderPredicate = true)
    (uri : String) : ∃ found, ofRows ns orderPredicate sheet uri = .ok found ∧
      ∀ order, found.result.computationOrder = some order → isText order = true := by
  obtain ⟨m, hm, hgathers⟩ := PropertyMap.exists_build ns { withSubject := false } hs hsheet hp ho
    (rfl : isText (.text uri) = true) rfl
  obtain ⟨predicate, rfl⟩ := exists_text hpredicate
  refine ⟨_, ofRows_eq_ok_iff.2 ⟨m, _, hm, rfl, rfl⟩, fun order horder => ?_⟩
  obtain ⟨v, hv, rfl⟩ := Option.map_eq_some_iff.1 horder
  obtain ⟨key, -, hget⟩ := List.exists_of_findSome?_eq_some hv
  exact PropertyMap.isText_format false (PropertyMap.isText_firstOf (PropertyMap.gathered_of_get? hgathers hget))

variable (ns) in
/-- Entities of a store of texts are found, and their computation orders are texts. -/
theorem exists_discover (hs : store.Textual) (hv : vocabulary.Textual) :
    ∃ found, discover store ns vocabulary = .ok found ∧
      ∀ key entity, found.result.get? key = some entity →
        ∀ order, entity.computationOrder = some order → isText order = true := by
  obtain ⟨sheet, hsheet, hshows, hp, ho⟩ := exists_ask_entities hs hv
  have hrows := exists_ofRows ns hs hshows hp ho hv.orderPredicate
  obtain ⟨reports, hreports⟩ := exists_mapM_eq_ok
    (f := fun s => ofRows ns vocabulary.orderPredicate sheet (ns.extend s))
    fun s (_ : s ∈ (sheet.rows.map fun row => (Sheet.cell row 0).display).eraseDups) => (hrows (ns.extend s)).imp fun _ h => h.1
  have hfound : discover store ns vocabulary = .ok ⟨Table.ofList (reports.map fun r =>
      (r.result.uri, r.result)), reports.flatMap (·.warnings)⟩ := by
    unfold discover
    rw [hsheet]
    simp only [bind, Except.bind, hreports, pure, Except.pure]
  refine ⟨_, hfound, fun key entity hget order horder => ?_⟩
  obtain ⟨sheet', name, report, hsheet', hname, rfl, -⟩ := exists_of_discover hfound hget
  obtain rfl := Except.ok.inj (hsheet.symm.trans hsheet')
  obtain ⟨report', hreport', htext⟩ := hrows (ns.extend name)
  obtain rfl := Except.ok.inj (hname.symm.trans hreport')
  exact htext order horder

/-- The number of a step is too long to be read: a cell of the store ends in it. -/
def TooLong (store : Store) (ns : Namespaces) (cause : DiscoveryError) : Prop :=
  ∃ v digits, store.Holds v ∧ indexDigits? (ns.shortenValue v) = some digits ∧
    indexDigits < digits.length ∧ cause = .longIndex digits.length

theorem tooLong_of_steps {m : PropertyMap} {cause : DiscoveryError}
    (hm : m.Gathers fun k => ∃ v, store.Holds v ∧ k = ns.shortenValue v)
    (h : steps m = .error cause) : TooLong store ns cause := by
  simp only [steps, bind, Except.bind, pure, Except.pure] at h
  split at h
  · rename_i cause' hmap
    obtain rfl := Except.error.inj h
    obtain ⟨⟨digits, key, rule⟩, hmem, hread⟩ := exists_of_mapM_error hmap
    obtain ⟨e, he, hdigits⟩ := List.mem_filterMap.1 hmem
    obtain ⟨ds, hds, heq⟩ := Option.map_eq_some_iff.1 hdigits
    obtain ⟨rfl, -⟩ := Prod.mk.inj heq
    obtain ⟨⟨v, hv, hkey⟩, -⟩ := hm e he
    rw [hkey] at hds
    refine ⟨v, ds, hv, hds, ?_⟩
    unfold readIndex at hread
    dsimp only at hread
    split at hread
    · rename_i hok
      split at hok
      · contradiction
      · rename_i hlong
        exact ⟨by omega, (Except.error.inj hread).symm.trans (Except.error.inj hok).symm⟩
    · contradiction
  · contradiction

/-- The rules of a computation order can be read unless the number of a step is too long. -/
theorem tooLong_of_rulesOf (hs : store.Textual) {uri : String} {order : Value}
    (horder : isText order = true) {cause : DiscoveryError}
    (h : rulesOf store ns uri order = .error cause) : TooLong store ns cause := by
  obtain ⟨sheet, hsheet, hshows, hp, ho⟩ := exists_ask_order hs horder
  obtain ⟨m, hm, hgathers⟩ := PropertyMap.exists_build ns
    { shortObjects := false, withSubject := false } hs hshows hp ho horder rfl
  unfold rulesOf at h
  simp only [hsheet, hm, ofProperty, bind, Except.bind, pure, Except.pure] at h
  split at h
  · rename_i hsteps
    obtain rfl := Except.error.inj h
    exact tooLong_of_steps hgathers hsteps
  · contradiction

/-- Orders are refused only where the rules of one of them are. -/
theorem rulesOf_of_orders {entities : Table Entity} {cause : DiscoveryError}
    (h : orders entities store ns = .error cause) :
    ∃ key entity order uri, entities.get? key = some entity ∧
      entity.computationOrder = some order ∧ rulesOf store ns uri order = .error cause := by
  rcases bind_eq_error_iff.1 h with hfail | ⟨found, -, hok⟩
  · obtain ⟨uri, -, horder⟩ := exists_of_mapM_error hfail
    rcases bind_eq_error_iff.1 horder with hrules | ⟨report, -, hok⟩
    · unfold orderFor at hrules
      split at hrules
      · rename_i name order hfound
        obtain ⟨entity, hentity, hsome⟩ := Option.bind_eq_some_iff.1 hfound
        obtain ⟨order', horder', heq⟩ := Option.map_eq_some_iff.1 hsome
        obtain ⟨-, rfl⟩ := Prod.mk.inj heq
        refine ⟨_, entity, order', name, hentity, horder', ?_⟩
        cases hread : rulesOf store ns name order' with
        | error reason =>
          rw [hread] at hrules
          exact congrArg Except.error (Except.error.inj hrules)
        | ok report =>
          rw [hread] at hrules
          contradiction
      · contradiction
    · contradiction
  · contradiction

theorem tooLong_of_orders (hs : store.Textual) {entities : Table Entity}
    (hentities : ∀ key entity, entities.get? key = some entity →
      ∀ order, entity.computationOrder = some order → isText order = true) {cause : DiscoveryError}
    (h : orders entities store ns = .error cause) : TooLong store ns cause := by
  obtain ⟨key, entity, order, uri, hentity, horder, hrules⟩ := rulesOf_of_orders h
  exact tooLong_of_rulesOf hs (hentities key entity hentity order horder) hrules

end Entity

namespace Engine

variable {e : Engine}

theorem exists_complete {entities : Table Entity} {texts : Table (Option (List String))}
    (hfull : ∀ key ∈ entities.keys, e.namespaces.extend key = key)
    (h : e.orders entities = .ok texts) : ∃ orders, complete texts = .ok orders := by
  obtain ⟨hkeys, hget⟩ := Entity.entries_of_orders hfull h
  cases hcomplete : complete texts with
  | ok orders => exact ⟨orders, rfl⟩
  | error cause =>
    obtain ⟨uri, hmem, -⟩ := unknownOrder_of_complete hcomplete
    have huri : uri ∈ Entity.derived entities := hkeys ▸ List.mem_map_of_mem hmem
    obtain ⟨report?, hreport, hnone⟩ := hget uri _ (Table.get?_eq_some_iff.2 hmem)
    obtain ⟨entity, hentity, hderived⟩ := Entity.mem_derived.1 huri
    obtain ⟨order, horder⟩ := Option.isSome_iff_exists.1 hderived
    have hself := hfull uri (List.mem_of_mem_filter huri)
    unfold Entity.orderFor at hreport
    simp only [hself, hentity, Option.bind_some, horder, Option.map_some] at hreport
    cases hrules : Entity.rulesOf e.store e.namespaces entity.uri order with
    | error reason =>
      rw [hrules] at hreport
      contradiction
    | ok report =>
      rw [hrules] at hreport
      obtain rfl := Except.ok.inj hreport
      contradiction

/-- Orders to evaluate are prepared unless a base entity has no value or the number of a step is too
long to be read. -/
theorem missingBase_or_tooLong_of_prepare (hs : e.store.Textual)
    (hv : e.settings.vocabulary.Textual)
    (hidem : ∀ name, e.namespaces.extend (e.namespaces.extend name) = e.namespaces.extend name)
    {cause : ComputationError} (h : e.prepare = .error cause) :
    (∃ entity, cause = .missingBase entity) ∨
      ∃ reason, cause = .discovery reason ∧ Entity.TooLong e.store e.namespaces reason := by
  obtain ⟨found, hfound, htext⟩ := Entity.exists_discover e.namespaces hs hv
  have hdiscover : e.discover = .ok found := hfound
  rcases prepare_eq_error_iff.1 h with ⟨reason, hfail, -⟩ | ⟨found', hfound', hcases⟩
  · rw [hdiscover] at hfail
    contradiction
  obtain rfl := Except.ok.inj (hdiscover.symm.trans hfound')
  rcases hcases with ⟨entity, -, rfl⟩ | ⟨-, ⟨reason, horders, rfl⟩ | ⟨texts, horders, hfail⟩⟩
  · exact Or.inl ⟨entity, rfl⟩
  · exact Or.inr ⟨reason, rfl, Entity.tooLong_of_orders hs htext horders⟩
  · obtain ⟨orders, hcomplete⟩ := exists_complete
      (fun _ => full_of_discover hidem hdiscover) horders
    rw [hcomplete] at hfail
    contradiction

end Engine
end FormulaGraph
