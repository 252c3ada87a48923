import FormulaGraph.Proofs.Computation.Filling

/-! The rules of a computation order. The triples that tell of a step are those about the order whose
predicate ends in a low line and digits; each number leads to one rule, and the rules come by
increasing number, in whatever order the triples were told. -/
namespace FormulaGraph
namespace Entity

variable {store : Store} {prefixes ns : Namespaces} {triples : List Triple} {order : Value}
variable {t u : Triple}

def stepDigits (ns : Namespaces) (t : Triple) : List Char :=
  (indexDigits? (ns.shortenValue (.text t.predicate))).getD []

/-- Whether a triple tells of a step: its predicate in short form ends in a low line and digits. -/
def isStep (ns : Namespaces) (t : Triple) : Bool :=
  (indexDigits? (ns.shortenValue (.text t.predicate))).isSome

def stepNumber (ns : Namespaces) (t : Triple) : ℕ := Text.readDigits 0 (stepDigits ns t)

def stepRule (ns : Namespaces) (t : Triple) : String :=
  Rule.normalizeText ns.extend (ns.extendValue t.object).display

/-- The triples that give a computation order the rule of a step. -/
def stepTriples (store : Store) (ns : Namespaces) (order : Value) : List Triple :=
  (present (listed store order)).filter (isStep ns)

def firstSteps (store : Store) (ns : Namespaces) (order : Value) : List Triple :=
  heads ns (stepTriples store ns order)

theorem predicate_of_samePredicate (h : samePredicate ns t u = true) :
    ns.shorten t.predicate = ns.shorten u.predicate := by
  simpa [samePredicate, Namespaces.shortenValue, Value.eq] using h

theorem isStep_of_samePredicate (h : samePredicate ns t u = true) : isStep ns t = isStep ns u := by
  simp only [isStep, Namespaces.shortenValue, predicate_of_samePredicate h]

theorem stepNumber_of_samePredicate (h : samePredicate ns t u = true) :
    stepNumber ns t = stepNumber ns u := by
  simp only [stepNumber, stepDigits, Namespaces.shortenValue, predicate_of_samePredicate h]

/-- The steps of an order do not depend on what is told twice. -/
theorem firstSteps_filled : firstSteps (.filled prefixes triples) ns order =
    firstSteps ⟨prefixes, triples⟩ ns order := by
  have hpresent : present (keepFirst (Triple.sameContent prefixes)
      (listed ⟨prefixes, triples⟩ order)) = keepFirst (Triple.sameContent prefixes)
        (present (listed ⟨prefixes, triples⟩ order)) :=
    filter_keepFirst fun t _ u _ h => congrArg (!·) (Triple.isMissing_of_sameContent h)
  have hsteps : ∀ t u, t.sameContent prefixes u = true → isStep ns t = isStep ns u := fun t u h =>
    isStep_of_samePredicate (samePredicate_of_eq (Triple.names_of_sameContent h).2)
  unfold firstSteps stepTriples
  rw [listed_filled, hpresent, filter_keepFirst fun t _ u _ => hsteps t u]
  exact heads_keepFirst (fun t u h => (Triple.names_of_sameContent h).2) _

theorem filter_heads_present (ts : List Triple) :
    (heads ns ts).filter (isStep ns) = heads ns (ts.filter (isStep ns)) :=
  filter_keepFirst fun _ _ _ _ h => isStep_of_samePredicate h

theorem steps_ruleOf (ts : List Triple) :
    (ts.map (ruleOf ns)).filterMap (fun e => (indexDigits? e.1).map (·, e.2)) =
      (ts.filter (isStep ns)).map fun t => (stepDigits ns t, stepRule ns t) := by
  induction ts with
  | nil => rfl
  | cons t ts ih =>
    rw [List.map_cons, List.filterMap_cons, ih]
    cases hdigits : indexDigits? (ruleOf ns t).1 with
    | none =>
      have hstep : isStep ns t = false := congrArg Option.isSome hdigits
      rw [List.filter_cons_of_neg (Bool.eq_false_iff.1 hstep)]
      rfl
    | some digits =>
      have hstep : isStep ns t = true := congrArg Option.isSome hdigits
      have hread : stepDigits ns t = digits := congrArg (Option.getD · []) hdigits
      rw [List.filter_cons_of_pos hstep, List.map_cons, hread]
      rfl

theorem readStep_eq_ok_iff (step : List Char × String) (found : ℕ × String) :
    readStep step = .ok found ↔
      step.1.length ≤ indexDigits ∧ found = (Text.readDigits 0 step.1, step.2) := by
  unfold readStep readIndex
  split
  · rename_i hshort
    simp [hshort, Except.map, eq_comm]
  · rename_i hlong
    simp [hlong, Except.map]

def inOrder (ns : Namespaces) (ts : List Triple) : List Triple :=
  ts.mergeSort fun t u => stepNumber ns t ≤ stepNumber ns u

theorem mapM_readStep_eq_ok_iff {ts : List Triple} {found : List (ℕ × String)} :
    (ts.mapM fun t => readStep (stepDigits ns t, stepRule ns t)) = .ok found ↔
      (∀ t ∈ ts, (stepDigits ns t).length ≤ indexDigits) ∧
        found = ts.map fun t => (stepNumber ns t, stepRule ns t) :=
  mapM_eq_ok_map_iff fun t => readStep_eq_ok_iff (stepDigits ns t, stepRule ns t)

/-- To sort numbers with rules is to sort the triples that tell of them. -/
theorem mergeSort_map_step (ts : List Triple) :
    ((ts.map fun t => (stepNumber ns t, stepRule ns t)).mergeSort fun a b => a.1 ≤ b.1).map Prod.snd =
      (inOrder ns ts).map (stepRule ns) := by
  have hmap := List.map_mergeSort (f := fun t => (stepNumber ns t, stepRule ns t)) (l := ts)
    (r := fun t u => stepNumber ns t ≤ stepNumber ns u) (s := fun a b => a.1 ≤ b.1)
    fun _ _ _ _ => rfl
  rw [← hmap, List.map_map]
  rfl

theorem stepsOf_ruleOf {ts : List Triple} {rules : List String} :
    (stepsOf (ts.map (ruleOf ns))).map (List.map Prod.snd) = .ok rules ↔
      (∀ t ∈ ts.filter (isStep ns), (stepDigits ns t).length ≤ indexDigits) ∧
        rules = (inOrder ns (ts.filter (isStep ns))).map (stepRule ns) := by
  unfold stepsOf
  rw [steps_ruleOf, List.mapM_map]
  change (Except.map _ ((ts.filter (isStep ns)).mapM fun t =>
    readStep (stepDigits ns t, stepRule ns t))).map _ = _ ↔ _
  rw [← mergeSort_map_step]
  cases hfound : (ts.filter (isStep ns)).mapM fun t =>
      readStep (stepDigits ns t, stepRule ns t) with
  | error cause =>
    refine iff_of_false nofun fun ⟨hdigits, _⟩ => ?_
    have hok := mapM_readStep_eq_ok_iff.2 ⟨hdigits, rfl⟩
    rw [hfound] at hok
    contradiction
  | ok found =>
    obtain ⟨hdigits, rfl⟩ := mapM_readStep_eq_ok_iff.1 hfound
    exact ⟨fun h => ⟨hdigits, (Except.ok.inj h).symm⟩, fun h => congrArg Except.ok h.2.symm⟩

theorem inOrder_perm (ts : List Triple) : (inOrder ns ts).Perm ts := List.mergeSort_perm ..

/-- An identifier is that of a derived entity, whose computation order has these rules. -/
def HasRules (entities : Table Entity) (store : Store) (ns : Namespaces) (uri : String)
    (rules : List String) : Prop :=
  ∃ report, orderFor entities store ns uri = .ok (some report) ∧ report.result = rules

section Ordered

variable {entities : Table Entity} {e : Entity} {uri : String} {rules : List String}
variable (he : entities.get? (ns.extend uri) = some e) (horder : e.computationOrder = some order)
include he horder

theorem hasRules_iff_rulesOf : HasRules entities store ns uri rules ↔
    (rulesOf store ns e.uri order).map (·.result) = .ok rules := by
  have hfor : orderFor entities store ns uri = some <$> rulesOf store ns e.uri order := by
    have hfound : (entities.get? (ns.extend uri)).bind
        (fun e => e.computationOrder.map (e.uri, ·)) = some (e.uri, order) := by
      rw [he, Option.bind_some, horder, Option.map_some]
    unfold orderFor
    rw [hfound]
  unfold HasRules
  rw [hfor]
  cases rulesOf store ns e.uri order with
  | error cause => exact iff_of_false (fun ⟨_, h, _⟩ => nomatch h) nofun
  | ok report =>
    constructor
    · rintro ⟨report', h, rfl⟩
      obtain rfl := Option.some.inj (Except.ok.inj h)
      rfl
    · exact fun h => ⟨report, rfl, Except.ok.inj h⟩

variable (hconst : isVariable order = false) (hhashable : order.isHashable = true)
include hconst hhashable

/-- A computation order has rules if its objects can be looked up and no number of a step has too
many digits; they are those of the first triples of its steps, by increasing number. -/
theorem hasRules_iff : HasRules entities store ns uri rules ↔
    (∀ t ∈ listed store order, t.object.isHashable = true) ∧
      (∀ t ∈ firstSteps store ns order, (stepDigits ns t).length ≤ indexDigits) ∧
      rules = (inOrder ns (firstSteps store ns order)).map (stepRule ns) := by
  rw [hasRules_iff_rulesOf he horder]
  by_cases hobjects : ∀ t ∈ listed store order, t.object.isHashable = true
  · rw [rulesOf_listed hconst hhashable hobjects, stepsOf_ruleOf, filter_heads_present]
    exact (and_iff_right hobjects).symm
  · rw [rulesOf_unhashable hconst hhashable hobjects]
    exact iff_of_false nofun fun h => hobjects h.1

theorem length_of_hasRules (h : HasRules entities store ns uri rules) :
    rules.length = (firstSteps store ns order).length := by
  obtain ⟨-, -, rfl⟩ := (hasRules_iff he horder hconst hhashable).1 h
  rw [List.length_map, (inOrder_perm _).length_eq]

end Ordered

theorem pairwise_inOrder (ts : List Triple) :
    (inOrder ns ts).Pairwise fun t u => stepNumber ns t ≤ stepNumber ns u := by
  have hsorted : (inOrder ns ts).Pairwise fun t u =>
      decide (stepNumber ns t ≤ stepNumber ns u) = true :=
    List.pairwise_mergeSort
      (fun t u v htu huv => by simp only [decide_eq_true_eq] at *; omega)
      (fun t u => by simp only [Bool.or_eq_true, decide_eq_true_eq]; omega) ts
  exact hsorted.imp of_decide_eq_true

/-- Steps with numbers of their own have one order. -/
theorem inOrder_eq_of_perm {ts us : List Triple} (hdistinct : (ts.map (stepNumber ns)).Nodup)
    (h : us.Perm ts) : inOrder ns us = inOrder ns ts := by
  refine List.Perm.eq_of_pairwise (fun t u ht hu htu hut => ?_) (pairwise_inOrder us)
    (pairwise_inOrder ts) ((inOrder_perm us).trans (h.trans (inOrder_perm ts).symm))
  exact List.inj_on_of_nodup_map hdistinct (h.mem_iff.1 ((inOrder_perm us).mem_iff.1 ht))
    ((inOrder_perm ts).mem_iff.1 hu) (le_antisymm htu hut)

/-- Where the steps have numbers of their own, these increase. -/
theorem pairwise_lt_inOrder {ts : List Triple} (hdistinct : (ts.map (stepNumber ns)).Nodup) :
    (inOrder ns ts).Pairwise fun t u => stepNumber ns t < stepNumber ns u := by
  have hnodup : ((inOrder ns ts).map (stepNumber ns)).Nodup :=
    ((inOrder_perm ts).map _).nodup_iff.2 hdistinct
  exact (pairwise_inOrder ts).imp₂ (fun _ _ => lt_of_le_of_ne) (List.pairwise_map.1 hnodup)

theorem firstSteps_eq (hdistinct : ((stepTriples store ns order).map (stepNumber ns)).Nodup) :
    firstSteps store ns order = stepTriples store ns order := by
  refine keepFirst_of_pairwise ((List.pairwise_map.1 hdistinct).imp fun hne => ?_)
  exact Bool.eq_false_iff.2 (mt stepNumber_of_samePredicate hne)

theorem stepTriples_perm {triples : List Triple} (h : triples.Perm store.triples) :
    (stepTriples { store with triples } ns order).Perm (stepTriples store ns order) :=
  ((h.filter _).filter _).filter _

/-- The rules of a computation order whose steps have numbers of their own are those of all its
steps, by increasing number, in whatever order the triples are told. It has them if its objects can be
looked up and no number has too many digits. -/
theorem hasRules_exact {vocabulary : Vocabulary} {old : Store} {found : Reported (Table Entity)}
    (hfound : discover old ns vocabulary = .ok found) {uri : String} {e : Entity}
    (he : found.result.get? (ns.extend uri) = some e) (horder : e.computationOrder = some order)
    (hconst : isVariable order = false)
    (hdistinct : ((stepTriples store ns order).map (stepNumber ns)).Nodup) :
    ((∃ rules, HasRules found.result store ns uri rules) ↔
      (∀ t ∈ listed store order, t.object.isHashable = true) ∧
        ∀ t ∈ stepTriples store ns order, (stepDigits ns t).length ≤ indexDigits) ∧
    ∀ rules, HasRules found.result store ns uri rules →
      (∃ ts : List Triple, rules = ts.map (stepRule ns) ∧ ts.Perm (stepTriples store ns order) ∧
        ts.Pairwise fun t u => stepNumber ns t < stepNumber ns u) ∧
      ∀ triples : List Triple, triples.Perm store.triples →
        HasRules found.result (.filled store.namespaces triples) ns uri rules := by
  have hhashable := isHashable_order hfound he horder
  have hrules := fun (s : Store) (rules : List String) =>
    (hasRules_iff he horder hconst hhashable : HasRules found.result s ns uri rules ↔ _)
  constructor
  · simp only [hrules, exists_and_left, exists_eq, and_true, firstSteps_eq hdistinct]
  · intro rules h
    obtain ⟨hobjects, hdigits, rfl⟩ := (hrules store rules).1 h
    rw [firstSteps_eq hdistinct] at hdigits ⊢
    refine ⟨⟨_, rfl, inOrder_perm _, pairwise_lt_inOrder hdistinct⟩, fun triples hperm => ?_⟩
    have hsteps : (stepTriples ⟨store.namespaces, triples⟩ ns order).Perm
        (stepTriples store ns order) := stepTriples_perm hperm
    have hdistinct' : ((stepTriples ⟨store.namespaces, triples⟩ ns order).map
        (stepNumber ns)).Nodup := (hsteps.map _).nodup_iff.2 hdistinct
    refine (hrules _ _).2 ⟨isHashable_listed_filled.2 fun t ht =>
      hobjects t ((hperm.filter _).mem_iff.1 ht), ?_⟩
    rw [firstSteps_filled, firstSteps_eq hdistinct', inOrder_eq_of_perm hdistinct hsteps]
    exact ⟨fun t ht => hdigits t (hsteps.mem_iff.1 ht), rfl⟩

/-- Whether discovery names a resource as the computation order of an identifier. -/
def discoversOrder (store : Store) (ns : Namespaces) (vocabulary : Vocabulary) (uri order : String) :
    Bool :=
  match discover store ns vocabulary with
  | .ok found =>
    ((found.result.get? (ns.extend uri)).bind (·.computationOrder)).any ((Value.text order).eq ·)
  | .error _ => false

theorem exists_of_discoversOrder {vocabulary : Vocabulary} {uri order : String}
    (h : discoversOrder store ns vocabulary uri order = true) :
    ∃ found e, discover store ns vocabulary = .ok found ∧
      found.result.get? (ns.extend uri) = some e ∧ e.computationOrder = some (.text order) := by
  unfold discoversOrder at h
  split at h
  · rename_i found hfound
    obtain ⟨v, hv, heq⟩ := (Option.any_eq_true _ _).1 h
    obtain ⟨e, he, horder⟩ := Option.bind_eq_some_iff.1 hv
    have hsame : v = .text order := by
      cases v <;> simp [Value.eq, Value.quantity?] at heq
      rw [heq]
    exact ⟨found, e, hfound, he, hsame ▸ horder⟩
  · contradiction

def doubledStore : Store := .filled .standard [
  ⟨"http://u/d", "http://www.w3.org/1999/02/22-rdf-syntax-ns#type", .text "kno:StatisticValue"⟩,
  ⟨"http://u/d", "http://knorke/computationOrder", .text "http://u/o"⟩,
  ⟨"http://u/o", "http://knorke/_10", .text "+1"⟩,
  ⟨"http://u/o", "http://knorke/_2", .text "[http://u/x] * 2"⟩,
  ⟨"http://u/o", "http://www.w3.org/2000/01/rdf-schema#label", .text "twice, and one"⟩]

/-- The second step comes before the tenth, also when the triples are told backwards. -/
theorem hasRules_exact_doubled : ∃ found e,
    discover doubledStore .standard {} = .ok found ∧
    found.result.get? "http://u/d" = some e ∧ e.computationOrder = some (.text "http://u/o") ∧
    HasRules found.result doubledStore .standard "http://u/d" ["[http://u/x]*2", "+1"] ∧
    HasRules found.result (.filled .standard doubledStore.triples.reverse) .standard "http://u/d"
      ["[http://u/x]*2", "+1"] := by
  obtain ⟨found, e, hfound, he, horder⟩ := exists_of_discoversOrder
    (show discoversOrder doubledStore .standard {} "http://u/d" "http://u/o" = true by decide +kernel)
  have hdistinct : ((stepTriples doubledStore .standard (.text "http://u/o")).map
      (stepNumber .standard)).Nodup := by decide +kernel
  have hkey : found.result.get? (Namespaces.standard.extend "http://u/d") = some e := he
  obtain ⟨hread, hexact⟩ := hasRules_exact hfound hkey horder (by decide) hdistinct
  obtain ⟨rules, hrules⟩ := hread.2 ⟨by decide +kernel, by decide +kernel⟩
  obtain ⟨⟨ts, rfl, hperm, hincreasing⟩, hagain⟩ := hexact rules hrules
  have hnumbered : (ts.map fun t => (stepNumber .standard t, stepRule .standard t)).Perm
      [(2, "[http://u/x]*2"), (10, "+1")] :=
    (hperm.map _).trans (by
      rw [show (stepTriples doubledStore .standard (.text "http://u/o")).map
        (fun t => (stepNumber .standard t, stepRule .standard t)) =
          [(10, "+1"), (2, "[http://u/x]*2")] by decide +kernel]
      exact .swap ..)
  have hnumbers : (ts.map fun t => (stepNumber .standard t, stepRule .standard t)).Pairwise
      fun a b => a.1 < b.1 := List.pairwise_map.2 hincreasing
  have hsorted : ts.map (fun t => (stepNumber .standard t, stepRule .standard t)) =
      [(2, "[http://u/x]*2"), (10, "+1")] :=
    hnumbered.eq_of_pairwise (fun a b _ _ hab hba => by omega) hnumbers (by decide)
  have hlist : ts.map (stepRule .standard) = ["[http://u/x]*2", "+1"] := by
    have hsnd := congrArg (List.map Prod.snd) hsorted
    rwa [List.map_map] at hsnd
  rw [hlist] at hrules hagain
  exact ⟨found, e, hfound, he, horder, hrules, hagain _ (List.reverse_perm _)⟩

/-- The number of a step is what stands behind the last low line of its predicate, if this is digits
and nothing else. -/
theorem indexDigits?_eq_some_iff {predicate : String} {digits : List Char} :
    indexDigits? (.text predicate) = some digits ↔
      (∃ front, Text.dropFinalLineFeed predicate.toList = front ++ '_' :: digits) ∧
        Text.IsNumerals digits ∧ digits ≠ [] := by
  unfold indexDigits?
  dsimp only
  constructor
  · intro h
    split at h
    · rename_i front hrest
      split at h
      · contradiction
      rename_i hne
      obtain rfl := Option.some.inj h
      have hsplit := List.takeWhile_append_dropWhile (p := Text.isDigit)
        (l := (Text.dropFinalLineFeed predicate.toList).reverse)
      rw [hrest] at hsplit
      refine ⟨⟨front.reverse, ?_⟩, fun c hc => ?_, by simpa using hne⟩
      · have hwhole := congrArg List.reverse hsplit
        simpa using hwhole.symm
      · exact List.mem_takeWhile_imp (List.mem_reverse.1 hc)
    · contradiction
  · rintro ⟨⟨front, hsplit⟩, hdigits, hne⟩
    have hnumerals : Text.IsNumerals digits.reverse := fun c hc => hdigits c (List.mem_reverse.1 hc)
    have hstops : Text.Stops ('_' :: front.reverse) := by
      intro c hc
      obtain rfl := Option.some.inj hc
      decide
    have hreversed : (front ++ '_' :: digits).reverse = digits.reverse ++ '_' :: front.reverse := by
      simp
    rw [hsplit, hreversed, Text.takeWhile_digits hnumerals hstops,
      Text.dropWhile_digits hnumerals hstops, List.reverse_reverse]
    simp [hne]

/-- Triples tell of a step if their predicate in short form ends in a low line and digits. -/
theorem isStep_iff : isStep ns t = true ↔
    ∃ front digits, Text.dropFinalLineFeed (ns.shorten t.predicate).toList = front ++ '_' :: digits ∧
      Text.IsNumerals digits ∧ digits ≠ [] := by
  unfold isStep
  rw [Option.isSome_iff_exists]
  constructor
  · rintro ⟨digits, h⟩
    obtain ⟨⟨front, hsplit⟩, hdigits⟩ := indexDigits?_eq_some_iff.1 h
    exact ⟨front, digits, hsplit, hdigits⟩
  · rintro ⟨front, digits, hsplit, hdigits⟩
    exact ⟨digits, indexDigits?_eq_some_iff.2 ⟨⟨front, hsplit⟩, hdigits⟩⟩

def numberedStep (digits : List Char) : Triple :=
  ⟨"http://u/o", "http://knorke/_" ++ String.ofList digits, .text "[http://u/x]*2"⟩

theorem indexDigits?_numberedStep {digits : List Char} (hdigits : Text.IsDigits digits)
    (hne : digits ≠ []) :
    indexDigits? (.text (Namespaces.standard.shorten (numberedStep digits).predicate)) =
      some digits := by
  have htext : (numberedStep digits).predicate.toList =
      "http://knorke/".toList ++ '_' :: digits := by
    rw [numberedStep, String.toList_append, @String.toList_ofList digits]
    rfl
  have hlongest : Namespaces.longest? (numberedStep digits).predicate
      Namespaces.standard.table.entries = some ("kno", "http://knorke/") := by
    unfold Namespaces.longest?
    rw [htext]
    rfl
  have hread : ∀ (predicate : String) (front : List Char),
      predicate.toList = front ++ '_' :: digits → indexDigits? (.text predicate) = some digits := by
    intro predicate front h
    refine indexDigits?_eq_some_iff.2 ⟨⟨front, ?_⟩, hdigits.isNumerals, hne⟩
    rw [h]
    refine if_neg fun hfeed => ?_
    rw [List.getLast?_append_of_ne_nil _ (List.cons_ne_nil _ _), List.getLast?_cons_of_ne_nil hne]
      at hfeed
    have hfinal := hdigits _ (List.mem_of_getLast? hfeed)
    contradiction
  unfold Namespaces.shorten
  rw [hlongest]
  dsimp only
  split
  · refine hread _ "kno:".toList ?_
    rw [String.toList_append, String.toList_ofList, htext]
    rfl
  · exact hread _ _ htext

def longStep : Triple := numberedStep (List.replicate 4300 '0' ++ ['1'])

def longStore : Store := ⟨.standard, [
  ⟨"http://u/d", "http://www.w3.org/1999/02/22-rdf-syntax-ns#type", .text "kno:StatisticValue"⟩,
  ⟨"http://u/d", "http://knorke/computationOrder", .text "http://u/o"⟩, longStep]⟩

/-- The number of a single step can be too long to be read, so that the order has no rules. -/
theorem longStep_has_no_rules : ∃ found e,
    discover longStore .standard {} = .ok found ∧
    found.result.get? "http://u/d" = some e ∧ e.computationOrder = some (.text "http://u/o") ∧
    isVariable (.text "http://u/o") = false ∧
    (∀ t ∈ listed longStore (.text "http://u/o"), t.object.isHashable = true) ∧
    (∃ t, stepTriples longStore .standard (.text "http://u/o") = [t]) ∧
    ∀ rules, ¬ HasRules found.result longStore .standard "http://u/d" rules := by
  obtain ⟨found, e, hfound, he, horder⟩ := exists_of_discoversOrder
    (show discoversOrder longStore .standard {} "http://u/d" "http://u/o" = true by decide +kernel)
  have hdigits : Text.IsDigits (List.replicate 4300 '0' ++ ['1']) :=
    (Text.isDigits_zeros 4300).append fun c hc => List.mem_singleton.1 hc ▸ rfl
  have hread := indexDigits?_numberedStep hdigits (List.append_ne_nil_of_right_ne_nil _ (by simp))
  have hlisted : listed longStore (.text "http://u/o") = [longStep] := rfl
  have hsteps : stepTriples longStore .standard (.text "http://u/o") = [longStep] := by
    unfold stepTriples present
    rw [hlisted, List.filter_cons_of_pos rfl, List.filter_cons_of_pos]
    · rfl
    · exact congrArg Option.isSome hread
  have hlength : (stepDigits .standard longStep).length = 4301 := by
    rw [show stepDigits .standard longStep = _ from congrArg (Option.getD · []) hread,
      Option.getD_some, List.length_append, List.length_replicate]
    rfl
  refine ⟨found, e, hfound, he, horder, by decide, ?_, ⟨_, hsteps⟩, fun rules hrules => ?_⟩
  · rw [hlisted]
    exact List.forall_mem_singleton.2 rfl
  · obtain ⟨-, hshort, -⟩ := (hasRules_iff he horder (by decide) rfl).1 hrules
    rw [firstSteps, hsteps] at hshort
    have hle := hshort longStep (by simp [heads, keepFirst])
    rw [hlength] at hle
    exact absurd hle (by decide)

end Entity
end FormulaGraph
