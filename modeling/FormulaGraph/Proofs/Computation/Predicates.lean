import FormulaGraph.Proofs.Computation.Entities
import FormulaGraph.Proofs.Query.Grouping

/-! Predicates by any of their names. A property map has each predicate under one key, and what is looked
up there in three forms is found just if the key is one of the three: an alias of the prefix that the
key is written with is of no help, neither in a property map nor in discovery. -/
namespace FormulaGraph

namespace PropertyMap

variable {ns : Namespaces} {key x : String} {short : Bool} {m : PropertyMap}

/-- The key under which a map has a predicate is one of those that are tried: always, if the keys are
in full form. -/
def Reaches (ns : Namespaces) (short : Bool) (key : String) : Prop :=
  short = true → ns.shorten (ns.extend key) ∈ [key, ns.shorten key, ns.extend key]

instance (ns : Namespaces) (short : Bool) (key : String) : Decidable (Reaches ns short key) :=
  inferInstanceAs (Decidable (_ → _))

def keyOf (ns : Namespaces) (short : Bool) (key : String) : Value :=
  format ns short (.text (ns.extend key))

/-- All keys are forms of full predicates. -/
def KeysFull (ns : Namespaces) (short : Bool) (m : PropertyMap) : Prop :=
  ∀ e ∈ m.entries, ∃ q, ns.extendValue q = q ∧ e.1 = format ns short q

theorem eq_form {q : Value} (hq : ns.extendValue q = q) (hx : ns.extend x = ns.extend key) :
    (format ns short q).eq (.text x) =
      ((Value.text x).eq (keyOf ns short key) && (format ns short q).eq (keyOf ns short key)) := by
  rw [Bool.eq_iff_iff, Bool.and_eq_true]
  constructor
  · intro h
    have htext := Value.eq_text_iff.1 h
    have hkey : keyOf ns short key = .text x := by
      cases q with
      | text s =>
        have hs : ns.extend s = s := by simpa [Namespaces.extendValue] using hq
        rw [keyOf, ← hx]
        cases short with
        | false =>
          obtain rfl : ns.extend s = x := Value.text.inj htext
          rw [hs, hs]
          exact congrArg Value.text hs
        | true =>
          obtain rfl : ns.shorten s = x := Value.text.inj htext
          rw [Namespaces.extend_shorten hs]
          rfl
      | _ => cases short <;> contradiction
    rw [hkey]
    exact ⟨(Value.isCell_text x).self, h⟩
  · rintro ⟨h, hkey⟩
    rwa [Value.eq_text_iff.1 (Value.eq_symm rfl h)] at hkey

theorem get?_form (hm : m.KeysFull ns short) (hx : ns.extend x = ns.extend key) :
    m.get? (.text x) =
      if (Value.text x).eq (keyOf ns short key) then m.get? (keyOf ns short key) else none := by
  have hfind : m.entries.find? (·.1.eq (.text x)) = m.entries.find? fun e =>
      (Value.text x).eq (keyOf ns short key) && e.1.eq (keyOf ns short key) :=
    List.find?_congr fun e he => by
      obtain ⟨q, hq, heq⟩ := hm e he
      rw [heq, eq_form hq hx]
  unfold get?
  rw [hfind]
  cases (Value.text x).eq (keyOf ns short key) <;> simp

theorem KeysFull.erase (hm : m.KeysFull ns short) (k : Value) : (m.erase k).KeysFull ns short :=
  fun e he => hm e (List.mem_of_mem_filter he)

theorem ext_entries {m m' : PropertyMap} (h : m.entries = m'.entries) : m = m' := by
  cases m
  cases m'
  exact (mk.injEq ..).mpr h

theorem erase_erase (m : PropertyMap) (k : Value) : (m.erase k).erase k = m.erase k :=
  ext_entries (List.filter_eq_self.2 fun _ he => (List.mem_filter.1 he).2)

theorem erase_form (hm : m.KeysFull ns short) (hx : ns.extend x = ns.extend key) :
    m.erase (.text x) =
      if (Value.text x).eq (keyOf ns short key) then m.erase (keyOf ns short key) else m := by
  have hfilter : m.entries.filter (!·.1.eq (.text x)) = m.entries.filter fun e =>
      !((Value.text x).eq (keyOf ns short key) && e.1.eq (keyOf ns short key)) :=
    List.filter_congr fun e he => by
      obtain ⟨q, hq, heq⟩ := hm e he
      rw [heq, eq_form hq hx]
  refine ext_entries (hfilter.trans ?_)
  cases (Value.text x).eq (keyOf ns short key) <;> simp [PropertyMap.erase]

section Forms

variable (hidem : ∀ name, ns.extend (ns.extend name) = ns.extend name)
include hidem

theorem extend_of_mem_forms {v : Value} (hv : v ∈ forms ns (.text key)) :
    ∃ x, v = .text x ∧ ns.extend x = ns.extend key := by
  simp only [forms, List.mem_cons, List.not_mem_nil, or_false] at hv
  rcases hv with rfl | rfl | rfl
  · exact ⟨key, rfl, rfl⟩
  · exact ⟨_, rfl, Namespaces.extend_shorten_eq hidem key⟩
  · exact ⟨_, rfl, hidem key⟩

theorem any_forms_iff :
    ((forms ns (.text key)).any fun v => v.eq (keyOf ns short key)) = true ↔
      Reaches ns short key := by
  cases short with
  | false =>
    have hmem : Value.text (ns.extend key) ∈ forms ns (.text key) := by
      simp [forms, Namespaces.extendValue]
    have hkey : keyOf ns false key = .text (ns.extend key) := congrArg Value.text (hidem key)
    refine iff_of_true (List.any_eq_true.2 ⟨_, hmem, ?_⟩) fun h => absurd h Bool.false_ne_true
    rw [hkey]
    exact (Value.isCell_text _).self
  | true =>
    simp only [forms, keyOf, format, if_true, Namespaces.shortenValue, Namespaces.extendValue,
      Value.eq, List.any_cons, List.any_nil, Bool.or_false, Bool.or_eq_true, beq_iff_eq, Reaches,
      List.mem_cons, List.not_mem_nil, or_false, true_imp_iff]
    exact or_congr eq_comm (or_congr eq_comm eq_comm)

theorem property_eq (hm : m.KeysFull ns short) : property ns m (.text key) =
    .ok (if Reaches ns short key then m.get? (keyOf ns short key) else none) := by
  have hforms : ∀ v ∈ forms ns (.text key), m.get? v =
      if v.eq (keyOf ns short key) then m.get? (keyOf ns short key) else none := by
    intro v hv
    obtain ⟨x, rfl, hx⟩ := extend_of_mem_forms hidem hv
    exact get?_form hm hx
  refine congrArg Except.ok ((findSome?_eq_ite hforms).trans ?_)
  exact if_congr (any_forms_iff hidem) rfl rfl

theorem eraseProperty_eq (hm : m.KeysFull ns short) : eraseProperty ns m (.text key) =
    if Reaches ns short key then m.erase (keyOf ns short key) else m := by
  have hforms : ∀ vs : List Value, (∀ v ∈ vs, ∃ x, v = .text x ∧ ns.extend x = ns.extend key) →
      ∀ m : PropertyMap, m.KeysFull ns short → vs.foldl PropertyMap.erase m =
        if vs.any (·.eq (keyOf ns short key)) then m.erase (keyOf ns short key) else m := by
    intro vs
    induction vs with
    | nil => exact fun _ _ _ => rfl
    | cons v vs ih =>
      intro hvs m hm
      obtain ⟨x, rfl, hx⟩ := hvs v List.mem_cons_self
      rw [List.foldl_cons, ih (fun w hw => hvs w (List.mem_cons_of_mem _ hw)) _ (hm.erase _),
        erase_form hm hx, List.any_cons]
      cases (Value.text x).eq (keyOf ns short key) with
      | false => rfl
      | true => simp [erase_erase]
  exact (hforms _ (fun v => extend_of_mem_forms hidem) m hm).trans
    (if_congr (any_forms_iff hidem) rfl rfl)

end Forms

variable {options : PropertyOptions} {columns : TripleColumns} {sheet : Sheet}

theorem keysFull_of_build {subject : Value}
    (hfull : ∀ p, sheet.column? columns.predicate = some p →
      ∀ row ∈ sheet.rows, ns.extendValue (Sheet.cell row p) = Sheet.cell row p)
    (hoptions : options.withSubject = false) (h : build ns options columns sheet subject = .ok m) :
    m.KeysFull ns options.shortPredicates := by
  refine build_induction (fun e he => by simp [empty] at he) (fun row hrow p o hp m hm e he => ?_)
    hoptions h
  rcases mem_put he with hmem | ⟨hkey | ⟨w, hw⟩, -⟩
  · exact hm e hmem
  · exact ⟨_, hfull p hp row hrow, hkey⟩
  · exact hm (e.1, w) hw

end PropertyMap

namespace Entity

open PropertyMap (Reaches KeysFull keyOf)

variable {store : Store} {ns : Namespaces} {key : String} {sheet : Sheet}

/-- Discovery is answered by rows with the predicates of triples. -/
theorem hasUnder_ask {entityType : Value}
    (h : ask store (discoveryPatterns entityType) = .ok sheet) :
    sheet.HasUnder "p" fun v => ∃ t ∈ store.triples, v = .text t.predicate := by
  rw [ask_eq] at h
  cases hsolve : store.solve (discoveryPatterns entityType) with
  | error cause =>
    rw [hsolve] at h
    contradiction
  | ok found =>
    rw [hsolve] at h
    obtain rfl := Except.ok.inj h
    refine Store.hasUnder_solveBy (show "p" ∈ anyTriple.vars by decide) (fun triples htriples => ?_)
      (by decide) hsolve
    obtain rfl := Except.ok.inj ((matching_anyTriple store).symm.trans htriples)
    refine ⟨show "p" ∈ anyTriple.vars by decide, fun place hplace row hrow => ?_⟩
    obtain ⟨t, ht, rfl⟩ := List.mem_map.1 hrow
    obtain rfl : place = 1 := by
      have hcolumns : ["s", "p", "o"][place]? = some "p" := hplace
      match place with
      | 0 => simp at hcolumns
      | 1 => rfl
      | 2 => simp at hcolumns
      | _ + 3 => simp at hcolumns
    exact ⟨t, ht, rfl⟩

section Alias

variable (hidem : ∀ name, ns.extend (ns.extend name) = ns.extend name)
include hidem

theorem ofRows_of_keysFull {uri : String} {m : PropertyMap}
    (hbuild : PropertyMap.build ns { withSubject := false } {} sheet (.text uri) = .ok m)
    (hm : m.KeysFull ns true) (key : String) :
    let order := if Reaches ns true key then m.get? (keyOf ns true key) else none
    let rest := if Reaches ns true key then m.erase (keyOf ns true key) else m
    ofRows ns (.text key) sheet uri =
      .ok ⟨⟨uri, order.map fun v => ns.extendValue (firstOf v), rest⟩,
        (orderWarning? uri order).toList⟩ := by
  refine ofRows_eq_ok_iff.2 ⟨m, _, hbuild, PropertyMap.property_eq hidem hm, ?_⟩
  rw [PropertyMap.eraseProperty_eq hidem hm]

/-- An entity is the same under a name of the order predicate as under its full form, if the name leads
to the key of the predicate, and is a base entity otherwise. -/
theorem ofRows_alias (key : String) {uri : String} (hkeys : ∀ m,
    PropertyMap.build ns { withSubject := false } {} sheet (.text uri) = .ok m →
      m.KeysFull ns true) :
    (Reaches ns true key →
      ofRows ns (.text key) sheet uri = ofRows ns (.text (ns.extend key)) sheet uri) ∧
    (¬ Reaches ns true key →
      (ofRows ns (.text key) sheet uri).map (fun report => report.result.core) =
        (ofRows ns (.text (ns.extend key)) sheet uri).map fun report =>
          (report.result.uri, none)) := by
  cases hbuild : PropertyMap.build ns { withSubject := false } {} sheet (.text uri) with
  | error cause =>
    have hrefused : ∀ name, ofRows ns (.text name) sheet uri = .error (.property cause) := by
      intro name
      unfold ofRows
      simp only [hbuild]
      rfl
    rw [hrefused, hrefused]
    exact ⟨fun _ => rfl, fun _ => rfl⟩
  | ok m =>
    have hfull : Reaches ns true (ns.extend key) := fun _ => by simp [hidem]
    have hkey : keyOf ns true (ns.extend key) = keyOf ns true key := by rw [keyOf, hidem, keyOf]
    rw [ofRows_of_keysFull hidem hbuild (hkeys m hbuild),
      ofRows_of_keysFull hidem hbuild (hkeys m hbuild), hkey, if_pos hfull, if_pos hfull]
    refine ⟨fun hreach => ?_, fun hreach => ?_⟩
    · rw [if_pos hreach, if_pos hreach]
    · rw [if_neg hreach, if_neg hreach]
      rfl

/-- Discovery sees the same under a name of the order predicate as under its full form, if the name
leads to the key of the predicate; otherwise it takes all entities for base ones. -/
theorem discover_alias {entityType : Value}
    (hfull : ∀ t ∈ store.triples, ns.extend t.predicate = t.predicate) :
    (Reaches ns true key → discover store ns ⟨entityType, .text key⟩ =
      discover store ns ⟨entityType, .text (ns.extend key)⟩) ∧
    (¬ Reaches ns true key →
      (discover store ns ⟨entityType, .text key⟩).map (fun found => found.result.map core) =
        (discover store ns ⟨entityType, .text (ns.extend key)⟩).map fun found =>
          found.result.map fun e => (e.uri, none)) := by
  rw [discover_map fun _ => rfl, discover_map fun _ => rfl]
  unfold discover
  cases hask : ask store (discoveryPatterns entityType) with
  | error cause => exact ⟨fun _ => rfl, fun _ => rfl⟩
  | ok sheet =>
    have hunder := hasUnder_ask hask
    have hkeys : ∀ uri m, PropertyMap.build ns { withSubject := false } {} sheet (.text uri) =
        .ok m → m.KeysFull ns true := by
      refine fun uri m hbuild => PropertyMap.keysFull_of_build (fun p hp row hrow => ?_) rfl hbuild
      obtain ⟨hlt, hname, -⟩ := List.findIdx?_eq_some_iff_getElem.1 hp
      obtain ⟨t, ht, hcell⟩ := hunder.cells p
        (List.getElem?_eq_some_iff.2 ⟨hlt, beq_iff_eq.1 hname⟩) row hrow
      rw [hcell]
      exact congrArg Value.text (hfull t ht)
    have hrows := fun uri => ofRows_alias hidem key (hkeys uri)
    refine ⟨fun hreach => ?_, fun hreach => ?_⟩
    · simp only [bind, Except.bind, (hrows _).1 hreach]
    · simp only [Except.bind, (hrows _).2 hreach]

end Alias
end Entity

namespace PropertyMap

/-- What is looked up in a property map under any name of a predicate is the group of the rows with the
full form of the name, if the name leads to the key of the predicate in the map, and else nothing:
with keys in full form all names do, with keys in short form the full name, the short one and no
alias. Discovery finds computation orders accordingly. -/
theorem property_exact (ns : Namespaces)
    (hidem : ∀ name, ns.extend (ns.extend name) = ns.extend name) (key : String) :
    (∀ (options : PropertyOptions) (columns : TripleColumns) (sheet : Sheet) (subject : String)
        (p o : Nat), sheet.column? columns.predicate = some p →
      sheet.column? columns.object = some o → options.withSubject = false →
      (∀ row ∈ sheet.rows, (Sheet.cell row p).isHashable = true ∧
        ns.extendValue (Sheet.cell row p) = Sheet.cell row p) →
      let rows := subjectRows sheet columns (ns.extend subject)
      let group := gather (objectsOf ns options p o id rows (.text (ns.extend key)))
      ∃ m, build ns options columns sheet (.text subject) = .ok m ∧
        property ns m (.text key) =
          .ok (if Reaches ns options.shortPredicates key then group else none) ∧
        (group = none ↔ ¬ ∃ row ∈ rows, (Sheet.cell row o).isMissing = false ∧
          (Sheet.cell row p).eq (.text (ns.extend key)) = true)) ∧
    ∀ (store : Store) (entityType : Value),
      (∀ t ∈ store.triples, ns.extend t.predicate = t.predicate) →
      (Reaches ns true key → Entity.discover store ns ⟨entityType, .text key⟩ =
        Entity.discover store ns ⟨entityType, .text (ns.extend key)⟩) ∧
      (¬ Reaches ns true key →
        (Entity.discover store ns ⟨entityType, .text key⟩).map
            (fun found => found.result.map Entity.core) =
          (Entity.discover store ns ⟨entityType, .text (ns.extend key)⟩).map fun found =>
            found.result.map fun e => (e.uri, none)) := by
  refine ⟨?_, fun store entityType => Entity.discover_alias hidem⟩
  intro options columns sheet subject p o hp ho hoptions hfull rows group
  obtain ⟨m, hm, -, hget⟩ := build_rows ns options subject hp ho fun row hrow => (hfull row hrow).1
  refine ⟨m, hm, ?_, ?_⟩
  · have hkeys : m.KeysFull ns options.shortPredicates := by
      refine keysFull_of_build (fun p' hp' row hrow => ?_) hoptions hm
      obtain rfl := Option.some.inj (hp.symm.trans hp')
      exact (hfull row hrow).2
    have hrows : ∀ row ∈ rows, ns.extendValue (Sheet.cell row p) = Sheet.cell row p :=
      fun row hrow => (hfull row (mem_rows_of_subjectRows hrow)).2
    have hfullKey : ns.extendValue (.text (ns.extend key)) = .text (ns.extend key) :=
      congrArg Value.text (hidem key)
    rw [property_eq hidem hkeys, hget _ fun h => absurd h (by simp [hoptions]), keyOf,
      objectsOf_format hrows hfullKey]
  · exact (gather_eq_none_iff.trans not_not.symm).trans (not_congr objectsOf_ne_nil_iff)

/-- A row under an alias, the prefix that keys are written with, and the full predicate. -/
theorem property_exact_alias :
    let ns := Namespaces.standard.add "q" "http://knorke/"
    let sheet : Sheet := ⟨["s", "p", "o"], [[.text "http://u/d", .text "http://knorke/a", .text "1"]]⟩
    let store : Store := ⟨ns, [⟨"http://u/d", "http://www.w3.org/1999/02/22-rdf-syntax-ns#type",
      .text "http://knorke/StatisticValue"⟩,
      ⟨"http://u/d", "http://knorke/computationOrder", .text "http://u/o"⟩]⟩
    let type : Value := .text "kno:StatisticValue"
    (∃ m, build ns { withSubject := false } {} sheet (.text "http://u/d") = .ok m ∧
      property ns m (.text "kno:a") = .ok (some (.text "1"))) ∧
    (∃ m, build ns { withSubject := false } {} sheet (.text "http://u/d") = .ok m ∧
      property ns m (.text "q:a") = .ok none) ∧
    (∃ m, build ns { withSubject := false, shortPredicates := false } {} sheet (.text "http://u/d") =
      .ok m ∧ property ns m (.text "q:a") = .ok (some (.text "1"))) ∧
    Entity.discover store ns ⟨type, .text "kno:computationOrder"⟩ =
      Entity.discover store ns ⟨type, .text "http://knorke/computationOrder"⟩ ∧
    (Entity.discover store ns ⟨type, .text "q:computationOrder"⟩).map
        (fun found => found.result.map Entity.core) =
      (Entity.discover store ns ⟨type, .text "http://knorke/computationOrder"⟩).map fun found =>
        found.result.map fun e => (e.uri, none) := by
  intro ns sheet store type
  have hidem : ∀ name, ns.extend (ns.extend name) = ns.extend name :=
    Namespaces.extend_extend (by decide +kernel)
  have hfull : ∀ row ∈ sheet.rows, (Sheet.cell row 1).isHashable = true ∧
      ns.extendValue (Sheet.cell row 1) = Sheet.cell row 1 := by
    intro row hrow
    obtain rfl := List.mem_singleton.1 hrow
    exact ⟨rfl, by rfl⟩
  have hstored : ∀ t ∈ store.triples, ns.extend t.predicate = t.predicate := by decide +kernel
  obtain ⟨m, hm, hshort, -⟩ := (property_exact ns hidem "kno:a").1 { withSubject := false } {} sheet
    "http://u/d" 1 2 rfl rfl rfl hfull
  obtain ⟨m', hm', halias, -⟩ := (property_exact ns hidem "q:a").1 { withSubject := false } {} sheet
    "http://u/d" 1 2 rfl rfl rfl hfull
  obtain ⟨m'', hm'', hlong, -⟩ := (property_exact ns hidem "q:a").1
    { withSubject := false, shortPredicates := false } {} sheet "http://u/d" 1 2 rfl rfl rfl hfull
  rw [if_pos (by decide +kernel)] at hshort hlong
  rw [if_neg (by decide +kernel)] at halias
  refine ⟨⟨m, hm, hshort.trans (by rfl)⟩, ⟨m', hm', halias⟩, ⟨m'', hm'', hlong.trans (by rfl)⟩,
    ?_, ?_⟩
  · exact ((property_exact ns hidem "kno:computationOrder").2 store type hstored).1
      (by decide +kernel)
  · exact ((property_exact ns hidem "q:computationOrder").2 store type hstored).2
      (by decide +kernel)

/-- Under an alias of the prefix that keys are written with nothing is found, though there is a row with
the predicate. -/
theorem property_alias_lost :
    let ns := Namespaces.standard.add "q" "http://knorke/"
    let row : List Value := [.text "http://u/d", .text "http://knorke/a", .text "1"]
    (∀ name, ns.extend (ns.extend name) = ns.extend name) ∧
    (Sheet.cell row 1).eq (.text (ns.extend "q:a")) = true ∧
    (Sheet.cell row 2).isMissing = false ∧
    (build ns { withSubject := false } {} ⟨["s", "p", "o"], [row]⟩ (.text "http://u/d")).bind
      (property ns · (.text "q:a")) = .ok none := by
  intro ns row
  exact ⟨Namespaces.extend_extend (by decide +kernel), by decide +kernel, rfl, by rfl⟩

end PropertyMap
end FormulaGraph
