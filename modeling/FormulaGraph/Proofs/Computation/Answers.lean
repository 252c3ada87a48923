import FormulaGraph.Proofs.Computation.Discovery
import FormulaGraph.Proofs.Query.Columns

/-! What discovery asks a store of any cells, and the answers. They show triples about the subjects
of a type, or about a computation order, and nothing else of the store. -/
namespace FormulaGraph

open Column (isText)

def Triple.same (t u : Triple) : Bool := Sheet.sameRow t.cells u.cells

namespace Store

variable {s : Store}

/-- What the comparison keys of the objects have in common. -/
def objectKind (s : Store) : CellKind :=
  Column.kindOf (s.triples.map fun t => s.namespaces.comparisonKey t.object)

end Store

namespace Entity

def typePattern (entityType : Value) : Pattern :=
  ⟨.var "s", .ofValue (.text typePredicate), .ofValue entityType⟩

def anyTriple : Pattern := ⟨.var "s", .var "p", .var "o"⟩

variable {store : Store} {ns : Namespaces} {entityType : Value}

/-- Whether one of the triples that type subjects is about a subject. -/
def covers (ns : Namespaces) (typing : List Triple) (subject : String) : Bool :=
  typing.any fun t => (ns.comparisonKey (.text subject)).eq (ns.comparisonKey (.text t.subject))

/-- The triples about subjects that are typed, each as often as its subject is. -/
def shownOf (store : Store) (typing : List Triple) : List Triple :=
  store.triples.flatMap fun t => (typing.filter fun u =>
    (store.namespaces.comparisonKey (.text t.subject)).eq
      (store.namespaces.comparisonKey (.text u.subject))).map fun _ => t

/-- Whether a store of texts says of a subject that it is of a type. -/
def isTyped (store : Store) (entityType : Value) (subject : String) : Bool :=
  covers store.namespaces (store.matched (typePattern entityType)) subject

/-- The triples about subjects of a type in a store of texts. -/
def told (store : Store) (entityType : Value) : List Triple :=
  store.triples.filter fun t => isTyped store entityType t.subject

theorem mem_triples_of_shownOf {typing : List Triple} {t : Triple} (h : t ∈ shownOf store typing) :
    t ∈ store.triples := by
  obtain ⟨u, hu, hmem⟩ := List.mem_flatMap.1 h
  obtain ⟨-, -, rfl⟩ := List.mem_map.1 hmem
  exact hu

theorem vars_typePattern (hconst : isVariable entityType = false) :
    (typePattern entityType).vars = ["s"] := by
  unfold typePattern
  rw [PatternTerm.ofValue_eq_const_iff.2 ⟨hconst, rfl⟩]
  rfl

theorem row_typePattern (hconst : isVariable entityType = false) (t : Triple) :
    (typePattern entityType).row t = [.text t.subject] := by
  unfold typePattern
  rw [PatternTerm.ofValue_eq_const_iff.2 ⟨hconst, rfl⟩]
  rfl

theorem matching_anyTriple (store : Store) :
    anyTriple.matching .byKind store = .ok store.triples := by
  have hall : Pattern.constantsMatch .byKind store.namespaces store.triples anyTriple =
      .ok (store.triples.map fun _ => true && true && true) :=
    Pattern.constantsMatch_of_terms (Pattern.termMatches_var _ _ _ _ _ _)
      (Pattern.termMatches_var _ _ _ _ _ _) (Pattern.termMatches_var _ _ _ _ _ _)
  exact (Pattern.matching_of_constantsMatch rfl hall).trans
    (congrArg Except.ok (List.filter_eq_self.2 fun _ _ => rfl))

section Typing

variable {name : String} (hconst : isVariable (.text name) = false)
include hconst

/-- Whether discovery takes a triple to say that its subject is of the type. -/
def isTyping (store : Store) (name : String) (t : Triple) : Bool :=
  (typePattern (.text name)).predicate.admits store.namespaces (.text t.predicate) &&
    Column.equalsText store.objectKind (store.namespaces.extend (Text.trim name))
      (store.namespaces.comparisonKey t.object)

def typing (store : Store) (name : String) : List Triple := store.triples.filter (isTyping store name)

end Typing

/-- The subjects of some triples. -/
def subjectSheet (triples : List Triple) : Sheet := ⟨["s"], triples.map fun t => [.text t.subject]⟩

theorem sheet_typePattern (hconst : isVariable entityType = false) (triples : List Triple) :
    (typePattern entityType).sheet triples = subjectSheet triples := by
  unfold Pattern.sheet
  rw [vars_typePattern hconst]
  exact congrArg _ (List.map_congr_left fun u _ => row_typePattern hconst u)

theorem keyNamesFree_subjectSheet (triples typed : List Triple) :
    (anyTriple.sheet triples).KeyNamesFree (subjectSheet typed) := by
  intro x hx y hy
  have hcases : y = "s" ∨ y = "p" ∨ y = "o" := by
    have hcolumns : y ∈ ["s", "p", "o"] ∨ y ∈ ["s"] := hy
    simp only [List.mem_cons, List.not_mem_nil, or_false] at hcolumns
    exact hcolumns.elim id Or.inl
  obtain rfl := List.mem_singleton.1 hx
  rcases hcases with rfl | rfl | rfl
  all_goals decide

theorem join_subjectSheet (triples typed : List Triple) :
    (anyTriple.sheet triples).join .byKind ns (subjectSheet typed) =
      .ok ⟨["s", "p", "o"], (triples.flatMap fun t => (typed.filter fun u =>
        (ns.comparisonKey (.text t.subject)).eq (ns.comparisonKey (.text u.subject))).map
          fun _ => t).map Triple.cells⟩ := by
  have hright : (subjectSheet typed).Regular := by
    refine ⟨List.nodup_singleton _, fun row hrow => ?_⟩
    obtain ⟨t, -, rfl⟩ := List.mem_map.1 hrow
    rfl
  have hshared : (anyTriple.sheet triples).shared (subjectSheet typed) = ["s"] := rfl
  have hfresh : (anyTriple.sheet triples).fresh (subjectSheet typed) = [] := rfl
  have htexts : ∀ x ∈ ["s"], (anyTriple.sheet triples).ComparesUnder ns (isText · = true) x ∧
      (subjectSheet typed).ComparesUnder ns (isText · = true) x := by
    intro x hx
    obtain rfl := List.mem_singleton.1 hx
    constructor
    all_goals
      intro row hrow
      obtain ⟨t, -, rfl⟩ := List.mem_map.1 hrow
      rfl
  have hagree : ∀ t u : Triple,
      Sheet.rowsAgree [ns.comparisonKey (.text t.subject)] [ns.comparisonKey (.text u.subject)] =
        (ns.comparisonKey (.text t.subject)).eq (ns.comparisonKey (.text u.subject)) := by
    intro t u
    rw [Sheet.rowsAgree, (Namespaces.isCell_comparisonKey_text _ _).agrees, Sheet.rowsAgree,
      Bool.and_true]
  have hkeysLeft : ∀ t : Triple, (anyTriple.sheet triples).keysAt ns ["s"] t.cells =
      [ns.comparisonKey (.text t.subject)] := fun t => rfl
  have hkeysRight : ∀ u : Triple, (subjectSheet typed).keysAt ns ["s"] [.text u.subject] =
      [ns.comparisonKey (.text u.subject)] := fun u => rfl
  have hrows : (anyTriple.sheet triples).rows = triples.map Triple.cells := rfl
  have hrows' : (subjectSheet typed).rows = typed.map fun u => [.text u.subject] := rfl
  have hcolumns : (anyTriple.sheet triples).columns = ["s", "p", "o"] := rfl
  rw [Sheet.join_of_shared Comparer.byEquality_byKind (Store.regular_sheet anyTriple triples) hright
    (fun x hx => (htexts x hx).1) (fun x hx => (htexts x hx).2)
    (keyNamesFree_subjectSheet triples typed), hshared, hfresh, hrows, hrows', hcolumns]
  simp only [List.map_nil, List.append_nil, List.flatMap_map, List.filter_map, List.map_map,
    Function.comp_def, hkeysLeft, hkeysRight, hagree, List.map_flatMap]

theorem join_shownOf (hconst : isVariable entityType = false) (typing : List Triple) :
    (anyTriple.sheet store.triples).join .byKind store.namespaces
        ((typePattern entityType).sheet typing) =
      .ok ⟨["s", "p", "o"], (shownOf store typing).map Triple.cells⟩ := by
  rw [sheet_typePattern hconst]
  exact join_subjectSheet store.triples _

theorem ask_eq (store : Store) (patterns : List Pattern) :
    ask store patterns = (store.solve patterns).mapError .column := by
  unfold ask
  cases store.solve patterns <;> rfl

theorem columns_discoveryPatterns (hconst : isVariable entityType = false) :
    ((discoveryPatterns entityType).flatMap Pattern.vars).eraseDups = ["s", "p", "o"] := by
  change ([anyTriple, typePattern entityType].flatMap Pattern.vars).eraseDups = _
  simp only [List.flatMap_cons, vars_typePattern hconst]
  decide

/-- Discovery is answered by the triples about subjects that are typed. -/
theorem ask_shownOf (hconst : isVariable entityType = false) {typing : List Triple}
    (hmatching : (typePattern entityType).matching .byKind store = .ok typing) :
    ask store (discoveryPatterns entityType) = (Store.answerOf ["s", "p", "o"]
      ((shownOf store typing).map Triple.cells)).mapError .column := by
  have hvars : (typePattern entityType).vars.isEmpty = false := by
    rw [vars_typePattern hconst]
    rfl
  have hanyVars : anyTriple.vars.isEmpty = false := by decide
  have hjoin : store.joinAll .byKind none (discoveryPatterns entityType) =
      .ok (if (shownOf store typing).isEmpty then none
        else some ⟨["s", "p", "o"], (shownOf store typing).map Triple.cells⟩) := by
    change store.joinAll .byKind none [anyTriple, typePattern entityType] = _
    simp only [Store.joinAll, matching_anyTriple, hmatching, hanyVars, hvars, join_shownOf hconst,
      bind, Except.bind, pure, Except.pure, if_false, Bool.false_eq_true, List.isEmpty_map]
    split <;> rfl
  have hregular :
      (⟨["s", "p", "o"], (shownOf store typing).map Triple.cells⟩ : Sheet).Regular := by
    refine ⟨by simp, fun row hrow => ?_⟩
    obtain ⟨t, -, rfl⟩ := List.mem_map.1 hrow
    rfl
  rw [ask_eq]
  refine congrArg (Except.mapError DiscoveryError.column)
    (Store.solveBy_of_joinAll hjoin ?_ (columns_discoveryPatterns hconst) hregular)
  split
  · rename_i hempty
    rw [List.isEmpty_iff.1 hempty]
    rfl
  · rfl

/-- The triples about a computation order. -/
def listed (store : Store) (order : Value) : List Triple :=
  store.triples.filter fun t => (Value.text t.subject).eq (store.namespaces.comparisonKey order)

/-- What a triple about a computation order says: predicate and object. -/
def said (t : Triple) : List Value := [.text t.predicate, t.object]

theorem isHashable_comparisonKey (ns : Namespaces) (v : Value) :
    (ns.comparisonKey v).isHashable = v.isHashable := by
  cases v <;> simp [Namespaces.comparisonKey, Value.isHashable]

theorem ask_listed {order : Value} (hconst : isVariable order = false)
    (hhashable : order.isHashable = true) :
    ask store [orderPattern order] =
      (Store.answerOf ["p", "o"] ((listed store order).map said)).mapError .column := by
  have hpattern : orderPattern order = ⟨.const order, .var "p", .var "o"⟩ := by
    unfold orderPattern
    rw [PatternTerm.ofValue_eq_const_iff.2 ⟨hconst, rfl⟩]
  have hkey := (isHashable_comparisonKey store.namespaces order).trans hhashable
  have hsubject : Pattern.termMatches .byKind store.namespaces (fun cells => .ok ⟨.mixed, cells⟩)
      (store.triples.map fun t => .text t.subject) (.const order) =
        .ok (store.triples.map fun t =>
          (Value.text t.subject).eq (store.namespaces.comparisonKey order)) := by
    have h := Column.matching_names (store.triples.map (·.subject)) hkey
    rw [List.map_map, List.map_map] at h
    exact h
  have hmatching : (orderPattern order).matching .byKind store = .ok (listed store order) := by
    rw [hpattern]
    refine (Pattern.matching_of_constantsMatch rfl (Pattern.constantsMatch_of_terms hsubject
      (Pattern.termMatches_var _ _ _ _ _ _) (Pattern.termMatches_var _ _ _ _ _ _))).trans ?_
    simp only [Bool.and_true]
    rfl
  have hvars : (orderPattern order).vars = ["p", "o"] := hpattern ▸ rfl
  have hrow : (orderPattern order).row = said := hpattern ▸ rfl
  rw [ask_eq]
  refine congrArg (Except.mapError DiscoveryError.column)
    ((Store.solveBy_of_matching (hvars ▸ List.cons_ne_nil _ _) hmatching).trans ?_)
  rw [hvars, hrow]

theorem isHashable_of_ask {patterns : List Pattern} {sheet : Sheet}
    (h : ask store patterns = .ok sheet) : ∀ row ∈ sheet.rows, ∀ v ∈ row, v.isHashable = true := by
  rw [ask_eq] at h
  cases hsolve : store.solve patterns with
  | error cause =>
    rw [hsolve] at h
    contradiction
  | ok found =>
    rw [hsolve] at h
    obtain rfl := Except.ok.inj h
    exact Store.isHashable_of_solveBy hsolve

/-- The computation order of an entity that is found can be looked up. -/
theorem isHashable_order {vocabulary : Vocabulary} {found : Reported (Table Entity)}
    (h : discover store ns vocabulary = .ok found) {key : String} {entity : Entity}
    (hget : found.result.get? key = some entity) {order : Value}
    (horder : entity.computationOrder = some order) : order.isHashable = true := by
  obtain ⟨sheet, name, report, hsheet, hname, rfl, -⟩ := exists_of_discover h hget
  obtain ⟨properties, order', hbuild, hproperty, rfl⟩ := ofRows_eq_ok_iff.1 hname
  obtain ⟨v, hv, rfl⟩ := Option.map_eq_some_iff.1 horder
  have hfirsts : properties.FirstsHashable :=
    PropertyMap.firstsHashable_of_build (isHashable_of_ask hsheet) rfl hbuild
  unfold PropertyMap.property at hproperty
  split at hproperty
  · rw [← Except.ok.inj hproperty] at hv
    obtain ⟨form, -, hform⟩ := List.exists_of_findSome?_eq_some hv
    obtain ⟨e, he, rfl⟩ := Option.map_eq_some_iff.1 hform
    exact (PropertyMap.isHashable_format false _).trans (hfirsts e (List.mem_of_find?_eq_some he))
  · contradiction

end Entity
end FormulaGraph
