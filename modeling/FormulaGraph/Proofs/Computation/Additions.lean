import FormulaGraph.Proofs.Computation.Irrelevance
import FormulaGraph.Proofs.Computation.Steps

/-! What one more triple changes in the rules of a computation order. A step is told apart by the end
of a predicate in short form, whichever namespace the predicate is of, so that properties like a
version with a number count as steps as well. Nothing else about an order makes a difference. -/
namespace FormulaGraph

namespace Entity

variable {ns : Namespaces} {store : Store} {order : Value} {t : Triple}

def isAbout (store : Store) (order : Value) (t : Triple) : Bool :=
  (Value.text t.subject).eq (store.namespaces.comparisonKey order)

/-- Whether a triple gives a computation order the rule of a step. -/
def tellsStep (store : Store) (ns : Namespaces) (order : Value) (t : Triple) : Bool :=
  isAbout store order t && !t.object.isMissing && isStep ns t

/-- A triple that gives a computation order the rule of a step that it does not have. -/
structure IsNewStep (store : Store) (ns : Namespaces) (order : Value) (t : Triple) : Prop where
  tells : tellsStep store ns order t = true
  fresh : ∀ u ∈ stepTriples store ns order, samePredicate ns u t = false

theorem stepTriples_eq_filter :
    stepTriples store ns order = store.triples.filter (tellsStep store ns order) := by
  unfold stepTriples present listed
  rw [List.filter_filter, List.filter_filter]
  refine List.filter_congr fun t _ => ?_
  unfold tellsStep isAbout
  rw [Bool.and_comm, Bool.and_comm (isStep ns t), Bool.and_assoc]

section Added

variable (store ns order t)

theorem stepTriples_concat : stepTriples ⟨store.namespaces, store.triples ++ [t]⟩ ns order =
    stepTriples store ns order ++ [t].filter (tellsStep store ns order) := by
  rw [stepTriples_eq_filter, stepTriples_eq_filter, List.filter_append]
  rfl

theorem listed_concat : listed ⟨store.namespaces, store.triples ++ [t]⟩ order =
    listed store order ++ [t].filter (isAbout store order) :=
  List.filter_append ..

end Added

theorem firstSteps_concat_of_new (h : IsNewStep store ns order t) :
    firstSteps ⟨store.namespaces, store.triples ++ [t]⟩ ns order =
      firstSteps store ns order ++ [t] := by
  unfold firstSteps heads
  rw [stepTriples_concat, List.filter_cons_of_pos h.tells, List.filter_nil, keepFirst_concat, if_neg]
  rw [List.any_eq_true, not_exists]
  rintro u ⟨hu, hut⟩
  rw [h.fresh u (mem_of_mem_keepFirst hu)] at hut
  contradiction

/-- A step that an order has already makes no difference, nor does any other property. -/
theorem firstSteps_concat_of_not_new (h : ¬ IsNewStep store ns order t) :
    firstSteps ⟨store.namespaces, store.triples ++ [t]⟩ ns order = firstSteps store ns order := by
  unfold firstSteps heads
  rw [stepTriples_concat]
  by_cases htells : tellsStep store ns order t = true
  · obtain ⟨u, hu, hut⟩ : ∃ u ∈ stepTriples store ns order, samePredicate ns u t = true := by
      by_contra hnone
      push Not at hnone
      exact h ⟨htells, fun u hu => Bool.eq_false_iff.2 (hnone u hu)⟩
    rw [List.filter_cons_of_pos htells, List.filter_nil, keepFirst_concat, if_pos]
    rw [List.any_eq_true]
    rcases exists_keepFirst (r := samePredicate ns) hu with hkept | ⟨v, hv, hvu⟩
    · exact ⟨u, hkept, hut⟩
    · exact ⟨v, hv, samePredicate_trans hvu hut⟩
  · rw [List.filter_cons_of_neg htells, List.filter_nil, List.append_nil]

theorem isHashable_listed_concat :
    (∀ u ∈ listed ⟨store.namespaces, store.triples ++ [t]⟩ order, u.object.isHashable = true) ↔
      (∀ u ∈ listed store order, u.object.isHashable = true) ∧
        (isAbout store order t = true → t.object.isHashable = true) := by
  rw [listed_concat, List.forall_mem_append]
  refine and_congr_right fun _ => ?_
  constructor
  · exact fun h habout => h t (List.mem_filter.2 ⟨List.mem_singleton_self t, habout⟩)
  · intro h u hu
    obtain ⟨hmem, habout⟩ := List.mem_filter.1 hu
    obtain rfl := List.mem_singleton.1 hmem
    exact h habout

/-- What is added to a store leaves the rules of a computation order as they are, except for an
object that cannot be looked up and for a step that the order does not have. -/
theorem hasRules_add_iff {vocabulary : Vocabulary} {old store' : Store}
    {found : Reported (Table Entity)} (hfound : discover old ns vocabulary = .ok found)
    {uri : String} {e : Entity} (he : found.result.get? (ns.extend uri) = some e)
    (horder : e.computationOrder = some order) (hconst : isVariable order = false)
    {terms : List Value} (ht : Triple.ofTerms store.namespaces terms = .ok t)
    (hadd : store.add terms = (.ok (), store')) {rules : List String}
    (hrules : HasRules found.result store ns uri rules) :
    HasRules found.result store' ns uri rules ↔
      (isAbout store order t = true → t.object.isHashable = true) ∧
        ¬ IsNewStep store ns order t := by
  have hhashable := isHashable_order hfound he horder
  obtain rfl := Store.eq_filled_of_add ht hadd
  constructor
  · intro hafter
    obtain ⟨hobjects, -⟩ := (hasRules_iff he horder hconst hhashable).1 hafter
    refine ⟨(isHashable_listed_concat.1 (isHashable_listed_filled.1 hobjects)).2, fun hnew => ?_⟩
    -- one more rule is not the same list, whatever its number
    have hlength := length_of_hasRules he horder hconst hhashable hafter
    rw [length_of_hasRules he horder hconst hhashable hrules, firstSteps_filled,
      firstSteps_concat_of_new hnew, List.length_append, List.length_singleton] at hlength
    omega
  · rintro ⟨hobject, hnew⟩
    obtain ⟨hobjects, hsteps⟩ := (hasRules_iff he horder hconst hhashable).1 hrules
    refine (hasRules_iff he horder hconst hhashable).2
      ⟨isHashable_listed_filled.2 (isHashable_listed_concat.2 ⟨hobjects, hobject⟩), ?_⟩
    rwa [firstSteps_filled, firstSteps_concat_of_not_new hnew]

/-- An entity that is the square of another one. -/
def squareStore : Store := .tell .standard Engine.squareRows

theorem hasRules_square : ∃ found e, discover squareStore .standard {} = .ok found ∧
    found.result.get? "http://u/d" = some e ∧ e.computationOrder = some (.text "http://u/o") ∧
    HasRules found.result squareStore .standard "http://u/d" ["[http://u/x]*[http://u/x]"] := by
  obtain ⟨found, e, hfound, he, horder⟩ := exists_of_discoversOrder
    (show discoversOrder squareStore .standard {} "http://u/d" "http://u/o" = true by decide +kernel)
  refine ⟨found, e, hfound, he, horder, (hasRules_iff he horder (by decide) rfl).2 ⟨?_, ?_, ?_⟩⟩
  all_goals decide +kernel

theorem hasRules_add_label : ∃ found e store', discover squareStore .standard {} = .ok found ∧
    found.result.get? "http://u/d" = some e ∧ e.computationOrder = some (.text "http://u/o") ∧
    squareStore.add [.text "http://u/o", .text "rdfs:label", .text "square"] = (.ok (), store') ∧
    HasRules found.result squareStore .standard "http://u/d" ["[http://u/x]*[http://u/x]"] ∧
    HasRules found.result store' .standard "http://u/d" ["[http://u/x]*[http://u/x]"] := by
  obtain ⟨found, e, hfound, he, horder, hrules⟩ := hasRules_square
  have ht : Triple.ofTerms squareStore.namespaces
      [.text "http://u/o", .text "rdfs:label", .text "square"] =
        .ok ⟨"http://u/o", "http://www.w3.org/2000/01/rdf-schema#label", .text "square"⟩ := by
    rfl
  have hkey : found.result.get? (Namespaces.standard.extend "http://u/d") = some e := he
  have hadd := Store.add_of_ofTerms ht (by decide +kernel)
  refine ⟨found, e, _, hfound, he, horder, hadd, hrules,
    (hasRules_add_iff hfound hkey horder (by decide) ht hadd hrules).2
      ⟨fun _ => rfl, fun hnew => ?_⟩⟩
  have hstep := hnew.tells
  rw [show tellsStep squareStore .standard (.text "http://u/o") _ = false by decide +kernel] at hstep
  exact absurd hstep Bool.false_ne_true

/-- A version with a number counts as a step, though neither namespace of steps has a step of this
name. -/
theorem version_adds_rule : ∃ found e store', discover squareStore .standard {} = .ok found ∧
    found.result.get? "http://u/d" = some e ∧ e.computationOrder = some (.text "http://u/o") ∧
    (∀ number : String, Namespaces.standard.extend "kno:version_2" ≠ "http://knorke/_" ++ number ∧
      Namespaces.standard.extend "kno:version_2" ≠
        "http://www.w3.org/1999/02/22-rdf-syntax-ns#_" ++ number) ∧
    squareStore.add [.text "http://u/o", .text "kno:version_2", .text "released"] =
      (.ok (), store') ∧
    HasRules found.result squareStore .standard "http://u/d" ["[http://u/x]*[http://u/x]"] ∧
    ¬ HasRules found.result store' .standard "http://u/d" ["[http://u/x]*[http://u/x]"] := by
  obtain ⟨found, e, hfound, he, horder, hrules⟩ := hasRules_square
  have ht : Triple.ofTerms squareStore.namespaces
      [.text "http://u/o", .text "kno:version_2", .text "released"] =
        .ok ⟨"http://u/o", "http://knorke/version_2", .text "released"⟩ := by
    rfl
  refine ⟨found, e, _, hfound, he, horder, fun number => ?_,
    Store.add_of_ofTerms ht (by decide +kernel), hrules, ?_⟩
  · have hpredicate : Namespaces.standard.extend "kno:version_2" = "http://knorke/version_2" := by
      decide +kernel
    rw [hpredicate]
    constructor
    all_goals
      intro h
      have hchars := congrArg String.toList h
      rw [String.toList_append] at hchars
      simp at hchars
  · intro hafter
    have hlength := length_of_hasRules he horder (by decide) rfl hafter
    rw [show (firstSteps (.filled squareStore.namespaces (squareStore.triples ++ [_])) .standard
      (.text "http://u/o")).length = 2 by decide +kernel] at hlength
    exact absurd hlength (by decide)

end Entity
end FormulaGraph
