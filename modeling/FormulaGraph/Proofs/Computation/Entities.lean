import FormulaGraph.Proofs.Computation.Answers

/-! What discovery reads off a store of texts. The entities are the subjects of the given type, in the
order in which triples about them come first; of several computation orders of an entity the first one
counts, and so does the first of several rules of a step. -/
namespace FormulaGraph

open Column (isText)

namespace Entity

variable {store : Store} {ns : Namespaces} {entityType : Value}

theorem isCell_cells (hs : store.Textual) {t : Triple} (ht : t ∈ store.triples) :
    ∀ v ∈ t.cells, v.IsCell := by
  intro v hv
  obtain ⟨s, rfl⟩ := exists_text (hs.isText_cells ht hv)
  exact Value.isCell_text s

theorem same_self (hs : store.Textual) {t : Triple} (ht : t ∈ store.triples) :
    t.same t = true := by
  have hcells := isCell_cells hs ht
  exact (Store.sameRow_iff hcells).2 (.refl hcells)

theorem answerOf_textual (hs : store.Textual) {columns : List String} {rows : List (List Value)}
    (hrows : ∀ row ∈ rows, ∀ v ∈ row, store.Holds v) :
    Store.answerOf columns rows = .ok ⟨columns, Sheet.dropRepeated rows⟩ := by
  refine if_pos (List.all_eq_true.2 fun row hrow => List.all_eq_true.2 fun v hv => ?_)
  obtain ⟨s, rfl⟩ := exists_text (hs.isText_of_holds (hrows row hrow v hv))
  rfl

theorem ask_entities (hs : store.Textual) (htype : isText entityType = true)
    (hconst : isVariable entityType = false) :
    ask store (discoveryPatterns entityType) =
      .ok ⟨["s", "p", "o"], (keepFirst Triple.same (told store entityType)).map Triple.cells⟩ := by
  have hconstants : ∀ v ∈ (typePattern entityType).constants store.namespaces, isText v = true :=
    isText_of_discoveryPatterns htype _ (by simp [discoveryPatterns, typePattern])
  have hrows : keepFirst Triple.same (shownOf store (store.matched (typePattern entityType))) =
      keepFirst Triple.same (told store entityType) := by
    unfold shownOf told isTyped covers
    rw [keepFirst_flatMap_const fun t ht => same_self hs ht]
    refine congrArg _ (List.filter_congr fun t _ => ?_)
    rw [Bool.eq_iff_iff, List.any_eq_true]
    simp
  have hkept : Sheet.dropRepeated
      ((shownOf store (store.matched (typePattern entityType))).map Triple.cells) =
        (keepFirst Triple.same (shownOf store _)).map Triple.cells := keepFirst_map Triple.cells _
  have hmatching : (typePattern entityType).matching .byKind store =
      .ok (store.matched (typePattern entityType)) :=
    Pattern.matching_eq Comparer.byEquality_byKind hs.comparable hconstants
  rw [ask_shownOf hconst hmatching, answerOf_textual hs fun row hrow v hv => ?_, hkept, hrows]
  · rfl
  · obtain ⟨t, ht, rfl⟩ := List.mem_map.1 hrow
    exact ⟨t, mem_triples_of_shownOf ht, hv⟩

def samePredicate (ns : Namespaces) (t u : Triple) : Bool :=
  (ns.shortenValue (.text t.predicate)).eq (ns.shortenValue (.text u.predicate))

/-- The first of the triples with each predicate, told apart by their short forms. -/
def heads (ns : Namespaces) (triples : List Triple) : List Triple :=
  keepFirst (samePredicate ns) triples

theorem names_of_same {t u : Triple} (h : t.same u = true) :
    t.subject = u.subject ∧ t.predicate = u.predicate := by
  have hrow : Sheet.rowsAgree t.cells u.cells = true := h
  simp only [Triple.cells, Sheet.rowsAgree, (Value.isCell_text _).agrees, Value.eq, Bool.and_eq_true,
    beq_iff_eq] at hrow
  exact ⟨hrow.1, hrow.2.1⟩

def entry (ns : Namespaces) (short : Bool) (t : Triple) : Value × Value :=
  (ns.shortenValue (.text t.predicate), PropertyMap.format ns short t.object)

def present (triples : List Triple) : List Triple := triples.filter fun t => !t.object.isMissing

theorem present_of_texts {triples : List Triple} (h : ∀ t ∈ triples, isText t.object = true) :
    present triples = triples := by
  refine List.filter_eq_self.2 fun t ht => ?_
  obtain ⟨s, hs⟩ := exists_text (h t ht)
  rw [hs]
  rfl

theorem exists_build_triples (ns : Namespaces) (options : PropertyOptions) (subject : Value)
    {sheet : Sheet} {triples : List Triple} (hobjects : ∀ t ∈ triples, t.object.isHashable = true)
    (hrows : PropertyMap.rowsOf sheet {} (ns.extendValue subject) =
      .ok (triples.map fun t => (.text t.predicate, t.object)))
    (hsubject : options.withSubject = false) (hshort : options.shortPredicates = true) :
    ∃ m, PropertyMap.build ns options {} sheet subject = .ok m ∧
      m.firsts = (heads ns (present triples)).map (entry ns options.shortObjects) := by
  have hpresent : PropertyMap.present (triples.map fun t => (.text t.predicate, t.object)) =
      (present triples).map fun t => (.text t.predicate, t.object) := List.filter_map
  have hkeys : ∀ pair ∈ triples.map fun t => (Value.text t.predicate, t.object),
      pair.1.isHashable = true := by
    intro pair hpair
    obtain ⟨t, -, rfl⟩ := List.mem_map.1 hpair
    rfl
  refine ⟨_, PropertyMap.build_present hrows hkeys hsubject, ?_⟩
  rw [hpresent, PropertyMap.firsts_ofPairs, List.map_map, hshort]
  · exact keepFirst_map (entry ns options.shortObjects) (present triples)
  · intro pair hpair
    obtain ⟨t, ht, rfl⟩ := List.mem_map.1 hpair
    exact hobjects t (List.mem_of_mem_filter ht)

theorem rowsOf_entities {triples : List Triple} (uri : String) :
    PropertyMap.rowsOf ⟨["s", "p", "o"], triples.map Triple.cells⟩ {} (.text uri) =
      .ok ((triples.filter (·.subject == uri)).map fun t => (.text t.predicate, t.object)) := by
  have hrows : PropertyMap.subjectRows ⟨["s", "p", "o"], triples.map Triple.cells⟩ {} uri =
      (triples.filter (·.subject == uri)).map Triple.cells := List.filter_map
  have hread : PropertyMap.rowsOf ⟨["s", "p", "o"], triples.map Triple.cells⟩ {} (.text uri) = _ :=
    PropertyMap.rowsOf_eq rfl rfl uri
  rw [hread, hrows, List.map_map]
  rfl

theorem samePredicate_trans {t u v : Triple} (htu : samePredicate ns t u = true)
    (huv : samePredicate ns u v = true) : samePredicate ns t v = true :=
  Value.eq_trans (v := .text (ns.shorten t.predicate)) rfl htu huv

theorem samePredicate_of_eq {t u : Triple} (h : t.predicate = u.predicate) :
    samePredicate ns t u = true := by
  unfold samePredicate
  rw [h]
  exact (Value.isCell_text (ns.shorten u.predicate)).self

theorem heads_keepFirst {q : Triple → Triple → Bool}
    (hq : ∀ t u, q t u = true → t.predicate = u.predicate) (triples : List Triple) :
    heads ns (keepFirst q triples) = heads ns triples :=
  keepFirst_keepFirst (fun t u h => samePredicate_of_eq (hq t u h))
    (fun _ _ _ => samePredicate_trans) triples

theorem heads_filter_keepFirst {q : Triple → Triple → Bool}
    (hq : ∀ t u, q t u = true → t.subject = u.subject ∧ t.predicate = u.predicate)
    (p : String → Bool) (triples : List Triple) :
    heads ns ((keepFirst q triples).filter (p ·.subject)) =
      heads ns (triples.filter (p ·.subject)) := by
  rw [filter_keepFirst fun t _ u _ h => congrArg p (hq t u h).1,
    heads_keepFirst fun t u h => (hq t u h).2]

/-- The computation order that triples about an entity name. -/
def orderIn (ns : Namespaces) (orderPredicate : Value) (triples : List Triple) : Option Value :=
  (PropertyMap.forms ns orderPredicate).findSome? fun key =>
    ((heads ns triples).find? fun t => (ns.shortenValue (.text t.predicate)).eq key).map
      fun t => ns.extendValue (ns.shortenValue t.object)

/-- The triples about an entity, given in short or full form. -/
def described (store : Store) (ns : Namespaces) (entityType : Value) (uri : String) : List Triple :=
  (told store entityType).filter (·.subject == ns.extend uri)

/-- The subjects of a type, in the order in which triples about them come first. -/
def subjects (store : Store) (entityType : Value) : List String :=
  ((told store entityType).map (·.subject)).eraseDups

/-- The identifier of an entity and the computation order of a derived one. -/
def core (e : Entity) : String × Option Value := (e.uri, e.computationOrder)

theorem isText_of_told (hs : store.Textual) {t : Triple} (ht : t ∈ told store entityType) :
    isText t.object = true := hs t (List.mem_of_mem_filter ht)

variable (ns entityType) in
theorem exists_ofRows_told (hs : store.Textual) {orderPredicate : Value}
    (hpredicate : isText orderPredicate = true) (uri : String) :
    ∃ found, ofRows ns orderPredicate
        ⟨["s", "p", "o"], (keepFirst Triple.same (told store entityType)).map Triple.cells⟩ uri =
        .ok found ∧
      found.result.core = (uri, orderIn ns orderPredicate (described store ns entityType uri)) := by
  have htexts : ∀ t ∈ (keepFirst Triple.same (told store entityType)).filter
      (·.subject == ns.extend uri), isText t.object = true := fun t ht =>
    isText_of_told hs (mem_of_mem_keepFirst (List.mem_of_mem_filter ht))
  obtain ⟨m, hm, hfirsts⟩ := exists_build_triples ns { withSubject := false } (.text uri)
    (fun t ht => isHashable_of_isText (htexts t ht)) (rowsOf_entities (ns.extend uri)) rfl rfl
  rw [present_of_texts htexts, heads_filter_keepFirst (fun _ _ => names_of_same) (· == ns.extend uri)] at hfirsts
  obtain ⟨predicate, rfl⟩ := exists_text hpredicate
  refine ⟨_, ofRows_eq_ok_iff.2 ⟨m, _, hm, rfl, rfl⟩, congrArg (uri, ·) ?_⟩
  rw [List.map_findSome?]
  refine congrArg (List.findSome? · _) (funext fun key => ?_)
  have hget := PropertyMap.firsts_get? m key
  rw [hfirsts, List.find?_map, Option.map_map] at hget
  have hfull := congrArg (Option.map ns.extendValue) hget
  rw [Option.map_map, Option.map_map] at hfull
  exact hfull

theorem discover_map {β : Type} {g : Entity → String × β} (hg : ∀ e, (g e).1 = e.uri)
    (vocabulary : Vocabulary) :
    (discover store ns vocabulary).map (fun found => found.result.map g) =
      (ask store (discoveryPatterns vocabulary.entityType)).bind fun sheet =>
        ((sheet.rows.map fun row => (Sheet.cell row 0).display).eraseDups.mapM fun s =>
          (ofRows ns vocabulary.orderPredicate sheet (ns.extend s)).map fun report =>
            g report.result).map fun seen => Table.ofList (seen.map fun v => (v.1, v)) := by
  unfold discover
  cases ask store (discoveryPatterns vocabulary.entityType) with
  | error cause => rfl
  | ok sheet =>
    simp only [bind, Except.bind, mapM_map_ok]
    cases (sheet.rows.map fun row => (Sheet.cell row 0).display).eraseDups.mapM fun s =>
        ofRows ns vocabulary.orderPredicate sheet (ns.extend s) with
    | error cause => rfl
    | ok reports =>
      have hmap := Table.insertAll_map g Table.empty
        (reports.map fun report => (report.result.uri, report.result))
      refine congrArg Except.ok (hmap.symm.trans ?_)
      dsimp only
      rw [List.map_map, List.map_map]
      simp only [Function.comp_def, hg]
      rfl

variable (ns) in
/-- Discovery finds the subjects of the given type with the orders that are named for them. -/
theorem exists_discover_told {vocabulary : Vocabulary} (hs : store.Textual)
    (htype : isText vocabulary.entityType = true)
    (hconst : isVariable vocabulary.entityType = false)
    (hpredicate : isText vocabulary.orderPredicate = true) :
    ∃ found, discover store ns vocabulary = .ok found ∧
      found.result.map core = Table.ofList ((subjects store vocabulary.entityType).map fun s =>
        (ns.extend s, ns.extend s, orderIn ns vocabulary.orderPredicate
          (described store ns vocabulary.entityType (ns.extend s)))) := by
  have hsubjects : (((keepFirst Triple.same (told store vocabulary.entityType)).map Triple.cells).map
      fun row => (Sheet.cell row 0).display).eraseDups = subjects store vocabulary.entityType := by
    rw [List.map_map]
    exact eraseDups_map_keepFirst (f := Triple.subject) (fun t u h => (names_of_same h).1) _
  have hrows : ∀ uri, (ofRows ns vocabulary.orderPredicate ⟨["s", "p", "o"],
      (keepFirst Triple.same (told store vocabulary.entityType)).map Triple.cells⟩ uri).map
        (fun report => core report.result) = .ok (uri, orderIn ns vocabulary.orderPredicate
          (described store ns vocabulary.entityType uri)) := by
    intro uri
    obtain ⟨found, hfound, hcore⟩ := exists_ofRows_told ns vocabulary.entityType hs hpredicate uri
    rw [hfound]
    exact congrArg Except.ok hcore
  have hmap : (discover store ns vocabulary).map (fun found => found.result.map core) = _ :=
    discover_map (fun _ => rfl) vocabulary
  rw [ask_entities hs htype hconst] at hmap
  simp only [Except.bind, hsubjects, hrows] at hmap
  replace hmap := hmap.trans (congrArg (Except.map _) List.mapM_pure)
  cases hfound : discover store ns vocabulary with
  | error cause =>
    rw [hfound] at hmap
    contradiction
  | ok found =>
    rw [hfound] at hmap
    exact ⟨found, rfl, (Except.ok.inj hmap).trans (congrArg Table.ofList List.map_map)⟩

def readStep (step : List Char × String) : Except DiscoveryError (Nat × String) :=
  (readIndex step.1).map (·, step.2)

/-- The numbers and rules of those among some predicates with rules that are steps. -/
def stepsOf (rules : List (Value × String)) : Except DiscoveryError (List (Nat × String)) :=
  ((rules.filterMap fun e => (indexDigits? e.1).map (·, e.2)).mapM readStep).map
    (·.mergeSort fun a b => a.1 ≤ b.1)

theorem steps_eq_stepsOf (m : PropertyMap) :
    steps m = stepsOf (m.firsts.map fun e => (e.1, e.2.display)) := by
  have hnumbered : (m.firsts.map fun e => (e.1, e.2.display)).filterMap
      (fun e => (indexDigits? e.1).map (·, e.2)) =
        (numbered m).map fun e => (e.1, (firstOf e.2.2).display) := by
    unfold PropertyMap.firsts numbered
    rw [List.map_map, List.filterMap_map, List.map_filterMap]
    refine List.filterMap_congr fun e _ => ?_
    rw [Option.map_map]
    rfl
  have hread : (fun e => do
      return (← readIndex e.1, (firstOf e.2.2).display) :
        List Char × Value × Value → Except DiscoveryError (Nat × String)) =
      readStep ∘ fun e => (e.1, (firstOf e.2.2).display) := funext fun e => by
    change _ = (readIndex e.1).map _
    cases readIndex e.1 <;> rfl
  unfold steps stepsOf
  rw [hnumbered, List.mapM_map, hread]
  cases (numbered m).mapM (readStep ∘ fun e => (e.1, (firstOf e.2.2).display)) <;> rfl

/-- The rules do not matter for which steps there are. -/
theorem stepsOf_map (f : String → String) (rules : List (Value × String)) :
    stepsOf (rules.map fun e => (e.1, f e.2)) =
      (stepsOf rules).map (List.map fun e => (e.1, f e.2)) := by
  have hread : ∀ step, readStep (step.1, f step.2) = (readStep step).map fun e => (e.1, f e.2) := by
    intro step
    unfold readStep
    cases readIndex step.1 <;> rfl
  have hnumbered : (rules.map fun e => (e.1, f e.2)).filterMap
      (fun e => (indexDigits? e.1).map (·, e.2)) =
        (rules.filterMap fun e => (indexDigits? e.1).map (·, e.2)).map fun e => (e.1, f e.2) := by
    rw [List.filterMap_map, List.map_filterMap]
    refine List.filterMap_congr fun e _ => ?_
    rw [Option.map_map]
    rfl
  unfold stepsOf
  rw [hnumbered, List.mapM_map]
  have hcomp : (readStep ∘ fun e => (e.1, f e.2)) =
      fun step => (readStep step).map fun e => (e.1, f e.2) := funext hread
  rw [hcomp, mapM_map_ok]
  cases (rules.filterMap fun e => (indexDigits? e.1).map (·, e.2)).mapM readStep with
  | error cause => rfl
  | ok found =>
    have hsort := List.map_mergeSort (f := fun e : Nat × String => (e.1, f e.2)) (l := found)
      (r := fun a b => a.1 ≤ b.1) (s := fun a b => a.1 ≤ b.1) fun a _ b _ => rfl
    exact congrArg Except.ok hsort.symm

def orderTriples (store : Store) (order : String) : List Triple :=
  store.matched (orderPattern (.text order))

theorem orderTriples_eq {order : String} (hconst : isVariable (.text order) = false) :
    orderTriples store order = listed store (.text order) := by
  have hofValue : PatternTerm.ofValue (.text order) = .const (.text order) :=
    PatternTerm.ofValue_eq_const_iff.2 ⟨hconst, rfl⟩
  have hrepetitions : (⟨.const (.text order), .var "p", .var "o"⟩ : Pattern).repetitions = [] := rfl
  refine List.filter_congr fun t _ => ?_
  unfold orderPattern
  rw [hofValue, hrepetitions, List.all_nil, Bool.and_true, Pattern.admits]
  exact (Bool.and_true _).trans (Bool.and_true _)

/-- The predicate of a triple in short form, and its object as a rule in normal form. -/
def ruleOf (ns : Namespaces) (t : Triple) : Value × String :=
  (ns.shortenValue (.text t.predicate),
    Rule.normalizeText ns.extend (ns.extendValue t.object).display)

theorem predicate_of_said {t u : Triple} (h : Sheet.sameRow (said t) (said u) = true) :
    t.predicate = u.predicate := by
  have hrow : Sheet.rowsAgree (said t) (said u) = true := h
  simp only [said, Sheet.rowsAgree, (Value.isCell_text _).agrees, Value.eq, Bool.and_eq_true,
    beq_iff_eq] at hrow
  exact hrow.1

theorem isMissing_of_said {t u : Triple} (h : Sheet.sameRow (said t) (said u) = true)
    (ht : t.object.isHashable = true) : t.object.isMissing = u.object.isMissing := by
  have hrow : Sheet.rowsAgree (said t) (said u) = true := h
  simp only [said, Sheet.rowsAgree, Bool.and_eq_true, Bool.and_true] at hrow
  exact Value.isMissing_of_agrees hrow.2 ht

theorem ask_order {order : Value} (hconst : isVariable order = false)
    (hhashable : order.isHashable = true) :
    ask store [orderPattern order] =
      if (listed store order).all fun t => t.object.isHashable then
        .ok ⟨["p", "o"], (keepFirst (fun t u => Sheet.sameRow (said t) (said u))
          (listed store order)).map said⟩
      else .error (.column .unhashable) := by
  have hkept : Sheet.dropRepeated ((listed store order).map said) =
      (keepFirst (fun t u => Sheet.sameRow (said t) (said u)) (listed store order)).map said :=
    keepFirst_map said _
  have hall : ((listed store order).map said).all (·.all Value.isHashable) =
      (listed store order).all fun t => t.object.isHashable := by
    rw [List.all_map]
    refine congrArg (List.all _) (funext fun t => ?_)
    simp [said, Value.isHashable]
  rw [ask_listed hconst hhashable, Store.answerOf, hall, hkept]
  split
  · rfl
  · rfl

theorem rowsOf_order {triples : List Triple} {subject : Value} :
    PropertyMap.rowsOf ⟨["p", "o"], triples.map said⟩ {} subject =
      .ok (triples.map fun t => (.text t.predicate, t.object)) := by
  have hmask : PropertyMap.about ⟨["p", "o"], triples.map said⟩ {} subject =
      .ok (triples.map fun _ => true) := by
    change Except.ok ((triples.map said).map _) = _
    rw [List.map_map]
    rfl
  unfold PropertyMap.rowsOf
  rw [hmask]
  change Except.ok (((triples.map said).zip (triples.map _)).filterMap _) = _
  rw [List.zip_map', List.filterMap_map]
  exact congrArg Except.ok (congrFun List.filterMap_eq_map triples)

/-- The rules of a computation order are those of the first triple of each step whose object is
there. -/
theorem rulesOf_listed {order : Value} (hconst : isVariable order = false)
    (hhashable : order.isHashable = true)
    (hobjects : ∀ t ∈ listed store order, t.object.isHashable = true) (uri : String) :
    (rulesOf store ns uri order).map (·.result) =
      (stepsOf ((heads ns (present (listed store order))).map (ruleOf ns))).map
        (List.map Prod.snd) := by
  have hask : ask store [orderPattern order] = _ := ask_order hconst hhashable
  rw [if_pos (List.all_eq_true.2 hobjects)] at hask
  obtain ⟨m, hm, hfirsts⟩ := exists_build_triples ns
    { shortObjects := false, withSubject := false } order
    (fun t ht => hobjects t (mem_of_mem_keepFirst ht)) rowsOf_order rfl rfl
  unfold present at hfirsts
  rw [filter_keepFirst fun t ht u _ h => congrArg (!·) (isMissing_of_said h (hobjects t ht)),
    heads_keepFirst fun t u => predicate_of_said] at hfirsts
  have hrules : (heads ns (present (listed store order))).map (ruleOf ns) =
      (m.firsts.map fun e => (e.1, e.2.display)).map
        fun e => (e.1, Rule.normalizeText ns.extend e.2) := by
    rw [hfirsts, List.map_map, List.map_map]
    rfl
  rw [hrules, stepsOf_map, ← steps_eq_stepsOf]
  unfold rulesOf
  simp only [hask, hm, ofProperty, bind, Except.bind, pure, Except.pure]
  cases steps m with
  | error cause => rfl
  | ok found =>
    refine congrArg Except.ok ?_
    rw [List.map_map, List.map_map]
    rfl

/-- Lists and records among the objects are refused. -/
theorem rulesOf_unhashable {order : Value} (hconst : isVariable order = false)
    (hhashable : order.isHashable = true)
    (hobjects : ¬ ∀ t ∈ listed store order, t.object.isHashable = true) (uri : String) :
    rulesOf store ns uri order = .error (.column .unhashable) := by
  have hask : ask store [orderPattern order] = _ := ask_order hconst hhashable
  rw [if_neg (mt List.all_eq_true.1 hobjects)] at hask
  unfold rulesOf
  rw [hask]
  rfl

theorem rulesOf_eq (hs : store.Textual) {order : String} (hconst : isVariable (.text order) = false)
    (uri : String) : (rulesOf store ns uri (.text order)).map (·.result) =
      (stepsOf ((heads ns (orderTriples store order)).map (ruleOf ns))).map (List.map Prod.snd) := by
  have htexts : ∀ t ∈ listed store (.text order), isText t.object = true := fun t ht =>
    hs t (List.mem_of_mem_filter ht)
  rw [rulesOf_listed hconst rfl fun t ht => isHashable_of_isText (htexts t ht),
    present_of_texts htexts, orderTriples_eq hconst]

end Entity
end FormulaGraph
