import FormulaGraph.Entity
import FormulaGraph.Proofs.Lists
import FormulaGraph.Proofs.Query.Equality

/-! Property maps of texts. A predicate has a text or several of them, of which the first is that of the
first row with the predicate. -/
namespace FormulaGraph

open Column (isText)

theorem exists_text {v : Value} (h : isText v = true) : ∃ s, v = .text s := by
  cases v with
  | text s => exact ⟨s, rfl⟩
  | _ => contradiction

theorem isHashable_of_isText {v : Value} (h : isText v = true) : v.isHashable = true := by
  obtain ⟨s, rfl⟩ := exists_text h
  rfl

theorem isText_comparisonKey (ns : Namespaces) (v : Value) :
    isText (ns.comparisonKey v) = isText v := by
  cases v <;> simp [Namespaces.comparisonKey, isText]

namespace PropertyMap

def Gathered (v : Value) : Prop :=
  isText v = true ∨ ∃ items, v = .list items ∧ items ≠ [] ∧ ∀ item ∈ items, isText item = true

/-- Under keys of a class stands nothing but texts. -/
def Gathers (P : Value → Prop) (m : PropertyMap) : Prop := ∀ e ∈ m.entries, P e.1 ∧ Gathered e.2

variable {ns : Namespaces} {P : Value → Prop} {m : PropertyMap}

theorem isText_format (short : Bool) {v : Value} (h : isText v = true) :
    isText (format ns short v) = true := by
  obtain ⟨s, rfl⟩ := exists_text h
  cases short <;> rfl

theorem Gathered.collect {old new : Value} (h : Gathered old) (hnew : isText new = true) :
    Gathered (collect old new) := by
  rcases h with h | ⟨items, rfl, hne, hitems⟩
  · obtain ⟨s, rfl⟩ := exists_text h
    unfold PropertyMap.collect
    split
    · contradiction
    split
    · exact Or.inl rfl
    · exact Or.inr ⟨_, rfl, by simp, by simpa using ⟨rfl, hnew⟩⟩
  · change Gathered (if _ then _ else _)
    split
    · exact Or.inr ⟨items, rfl, hne, hitems⟩
    · refine Or.inr ⟨_, rfl, by simp, fun item hitem => ?_⟩
      rcases List.mem_append.1 hitem with hmem | hmem
      · exact hitems item hmem
      · rw [List.mem_singleton.1 hmem]
        exact hnew

theorem mem_put {key value : Value} {entries : List (Value × Value)} {e : Value × Value}
    (h : e ∈ put key value entries) :
    e ∈ entries ∨ (e.1 = key ∨ ∃ w, (e.1, w) ∈ entries) ∧ e.2 = value := by
  induction entries with
  | nil =>
    rw [put, List.mem_singleton] at h
    subst h
    exact Or.inr ⟨Or.inl rfl, rfl⟩
  | cons entry rest ih =>
    obtain ⟨k, w⟩ := entry
    rw [put] at h
    split at h
    · rcases List.mem_cons.1 h with rfl | hmem
      · exact Or.inr ⟨Or.inr ⟨w, List.mem_cons_self⟩, rfl⟩
      · exact Or.inl (List.mem_cons_of_mem _ hmem)
    · rcases List.mem_cons.1 h with rfl | hmem
      · exact Or.inl List.mem_cons_self
      · rcases ih hmem with hrest | ⟨hkey | ⟨u, hu⟩, hvalue⟩
        · exact Or.inl (List.mem_cons_of_mem _ hrest)
        · exact Or.inr ⟨Or.inl hkey, hvalue⟩
        · exact Or.inr ⟨Or.inr ⟨u, List.mem_cons_of_mem _ hu⟩, hvalue⟩

theorem gathered_of_get? (h : m.Gathers P) {key v : Value} (hv : m.get? key = some v) :
    Gathered v := by
  obtain ⟨e, he, rfl⟩ := Option.map_eq_some_iff.1 hv
  exact (h e (List.mem_of_find?_eq_some he)).2

theorem Gathers.addObject (h : m.Gathers P) {key v : Value} (hkey : P key)
    (hv : isText v = true) : (m.addObject key v).Gathers P := by
  have hvalue : Gathered ((m.get? key).elim v (collect · v)) := by
    cases hold : m.get? key with
    | none => exact Or.inl hv
    | some old => exact (gathered_of_get? h hold).collect hv
  intro e he
  rcases mem_put he with hmem | ⟨hkey' | ⟨w, hw⟩, hvalue'⟩
  · exact h e hmem
  · exact ⟨hkey' ▸ hkey, hvalue' ▸ hvalue⟩
  · exact ⟨(h _ hw).1, hvalue' ▸ hvalue⟩

def ofPairs (ns : Namespaces) (options : PropertyOptions) (pairs : List (Value × Value)) :
    PropertyMap :=
  pairs.foldl (fun m pair => m.addObject (format ns options.shortPredicates pair.1)
    (format ns options.shortObjects pair.2)) empty

variable {options : PropertyOptions} {pairs : List (Value × Value)}

theorem ofPairs_concat (pair : Value × Value) :
    ofPairs ns options (pairs ++ [pair]) = (ofPairs ns options pairs).addObject
      (format ns options.shortPredicates pair.1) (format ns options.shortObjects pair.2) := by
  unfold ofPairs
  rw [List.foldl_append, List.foldl_cons, List.foldl_nil]

def present (pairs : List (Value × Value)) : List (Value × Value) :=
  pairs.filter fun pair => !pair.2.isMissing

/-- Rows whose predicate can be looked up are all accepted; missing objects say nothing. -/
theorem foldlM_addRow (hkeys : ∀ pair ∈ pairs, pair.1.isHashable = true) :
    pairs.foldlM (addRow ns options) empty = .ok (ofPairs ns options (present pairs)) := by
  induction pairs using List.reverseRecOn with
  | nil => rfl
  | append_singleton pairs pair ih =>
    have hstep : addRow ns options (ofPairs ns options (present pairs)) pair =
        .ok (ofPairs ns options (present (pairs ++ [pair]))) := by
      unfold addRow present
      rw [List.filter_append, List.filter_singleton]
      cases hmissing : pair.2.isMissing with
      | true =>
        rw [if_pos rfl]
        exact congrArg (Except.ok ∘ ofPairs ns options) (List.append_nil _).symm
      | false =>
        rw [if_neg Bool.false_ne_true, hkeys pair (by simp)]
        exact congrArg Except.ok (ofPairs_concat pair).symm
    rw [List.foldlM_append, ih fun p hp => hkeys p (List.mem_append_left _ hp)]
    change addRow ns options _ pair >>= pure = _
    rw [hstep]
    rfl

theorem gathers_ofPairs (hpairs : ∀ pair ∈ pairs, isText pair.2 = true ∧
    P (format ns options.shortPredicates pair.1)) : (ofPairs ns options pairs).Gathers P := by
  induction pairs using List.reverseRecOn with
  | nil => simp [Gathers, ofPairs, empty]
  | append_singleton pairs pair ih =>
    obtain ⟨hobject, hP⟩ := hpairs pair (by simp)
    rw [ofPairs_concat]
    exact (ih fun p hp => hpairs p (List.mem_append_left _ hp)).addObject hP (isText_format _ hobject)

theorem build_ofPairs {columns : TripleColumns} {sheet : Sheet} {subject : Value}
    (hrows : rowsOf sheet columns (ns.extendValue subject) = .ok pairs)
    (hkeys : ∀ pair ∈ pairs, pair.1.isHashable = true) :
    build ns options columns sheet subject = .ok (if options.withSubject then
      (ofPairs ns options (present pairs)).insert subjectKey (ns.extendValue subject)
      else ofPairs ns options (present pairs)) := by
  unfold build
  simp only [hrows, bind, Except.bind, foldlM_addRow hkeys]
  rfl

theorem build_present {columns : TripleColumns} {sheet : Sheet} {subject : Value}
    (hrows : rowsOf sheet columns (ns.extendValue subject) = .ok pairs)
    (hkeys : ∀ pair ∈ pairs, pair.1.isHashable = true) (hoptions : options.withSubject = false) :
    build ns options columns sheet subject = .ok (ofPairs ns options (present pairs)) := by
  rw [build_ofPairs hrows hkeys, hoptions]
  rfl

theorem build_eq {columns : TripleColumns} {sheet : Sheet} {subject : Value}
    (hrows : rowsOf sheet columns (ns.extendValue subject) = .ok pairs)
    (hpairs : ∀ pair ∈ pairs, isText pair.1 = true ∧ isText pair.2 = true)
    (hoptions : options.withSubject = false) :
    build ns options columns sheet subject = .ok (ofPairs ns options pairs) := by
  have hall : present pairs = pairs := List.filter_eq_self.2 fun pair hpair => by
    obtain ⟨t, ht⟩ := exists_text (hpairs pair hpair).2
    rw [ht]
    rfl
  rw [build_present hrows (fun pair hpair => isHashable_of_isText (hpairs pair hpair).1) hoptions,
    hall]

theorem isText_firstOf {v : Value} (h : Gathered v) : isText (Entity.firstOf v) = true := by
  rcases h with h | ⟨items, rfl, hne, hitems⟩
  · obtain ⟨s, rfl⟩ := exists_text h
    rfl
  · cases items with
    | nil => contradiction
    | cons item rest => exact hitems item List.mem_cons_self

/-- The predicates with the first object of each. -/
def firsts (m : PropertyMap) : List (Value × Value) :=
  m.entries.map fun e => (e.1, Entity.firstOf e.2)

def Filled (m : PropertyMap) : Prop := ∀ e ∈ m.entries, e.2 ≠ .list []

theorem ne_nil_of_isHashable {v : Value} (h : v.isHashable = true) : v ≠ .list [] := by
  rintro rfl
  contradiction

theorem firstOf_of_isHashable {v : Value} (h : v.isHashable = true) : Entity.firstOf v = v := by
  cases v <;> first | rfl | contradiction

/-- One more object of a predicate comes behind those that it has. -/
theorem firstOf_collect {old : Value} (new : Value) (h : old ≠ .list []) :
    collect old new ≠ .list [] ∧ Entity.firstOf (collect old new) = Entity.firstOf old := by
  cases old with
  | list items =>
    cases items with
    | nil => contradiction
    | cons item rest =>
      change (if _ then _ else _) ≠ _ ∧ Entity.firstOf (if _ then _ else _) = _
      split
      · exact ⟨h, rfl⟩
      · exact ⟨by simp, rfl⟩
  | _ =>
    unfold collect
    dsimp only
    split
    · exact ⟨h, rfl⟩
    · exact ⟨by simp, rfl⟩

theorem firsts_get? (m : PropertyMap) (key : Value) :
    (m.get? key).map Entity.firstOf = (m.firsts.find? (·.1.eq key)).map Prod.snd := by
  unfold get? firsts
  rw [List.find?_map, Option.map_map, Option.map_map]
  rfl

theorem put_of_find?_none {key w : Value} {entries : List (Value × Value)}
    (h : entries.find? (·.1.eq key) = none) : put key w entries = entries ++ [(key, w)] := by
  induction entries with
  | nil => rfl
  | cons e rest ih =>
    obtain ⟨k, v⟩ := e
    rw [List.find?_cons] at h
    split at h
    · contradiction
    · rename_i hk
      rw [put, hk, ih h]
      rfl

/-- A function of the entries that an update does not change. -/
theorem map_put {α : Type} {f : Value × Value → α} {key w : Value} {entries : List (Value × Value)}
    {e : Value × Value} (h : entries.find? (·.1.eq key) = some e) (hf : f (e.1, w) = f e) :
    (put key w entries).map f = entries.map f := by
  induction entries with
  | nil => contradiction
  | cons d rest ih =>
    obtain ⟨k, v⟩ := d
    rw [List.find?_cons] at h
    split at h
    · rename_i hk
      obtain rfl := Option.some.inj h
      rw [put, if_pos hk, List.map_cons, List.map_cons, hf]
    · rename_i hk
      have hk' : ¬ k.eq key = true := Bool.eq_false_iff.1 hk
      rw [put, if_neg hk', List.map_cons, List.map_cons, ih h]

theorem Filled.addObject (h : m.Filled) (key : Value) {v : Value} (hv : v ≠ .list []) :
    (m.addObject key v).Filled := by
  intro e he
  rcases mem_put he with hmem | ⟨-, hvalue⟩
  · exact h e hmem
  · rw [hvalue]
    unfold get?
    cases hold : m.entries.find? (·.1.eq key) with
    | none => exact hv
    | some old => exact (firstOf_collect v (h old (List.mem_of_find?_eq_some hold))).1

/-- One more object counts only if it is the first of its predicate. -/
theorem firsts_addObject (h : m.Filled) (key v : Value) :
    (m.addObject key v).firsts =
      if m.firsts.any (·.1.eq key) then m.firsts else m.firsts ++ [(key, Entity.firstOf v)] := by
  have hany : m.firsts.any (·.1.eq key) = (m.entries.find? (·.1.eq key)).isSome := by
    rw [Bool.eq_iff_iff, List.find?_isSome, firsts, List.any_map, List.any_eq_true]
    rfl
  rw [hany]
  unfold addObject firsts get?
  cases hfind : m.entries.find? (·.1.eq key) with
  | none =>
    change (put key v m.entries).map _ = _
    rw [put_of_find?_none hfind, List.map_append]
    rfl
  | some e =>
    have hold := firstOf_collect v (h e (List.mem_of_find?_eq_some hfind))
    exact map_put hfind (congrArg (e.1, ·) hold.2)

theorem isHashable_format (short : Bool) (v : Value) :
    (format ns short v).isHashable = v.isHashable := by
  cases short <;> cases v <;> rfl

theorem filled_ofPairs (hpairs : ∀ pair ∈ pairs, pair.2.isHashable = true) :
    (ofPairs ns options pairs).Filled := by
  induction pairs using List.reverseRecOn with
  | nil => simp [Filled, ofPairs, empty]
  | append_singleton pairs pair ih =>
    rw [ofPairs_concat]
    refine (ih fun p hp => hpairs p (List.mem_append_left _ hp)).addObject _ ?_
    exact ne_nil_of_isHashable ((isHashable_format _ _).trans (hpairs pair (by simp)))

theorem firsts_ofPairs (hpairs : ∀ pair ∈ pairs, pair.2.isHashable = true) :
    (ofPairs ns options pairs).firsts = keepFirst (fun p q => p.1.eq q.1)
      (pairs.map fun pair => (format ns options.shortPredicates pair.1,
        format ns options.shortObjects pair.2)) := by
  induction pairs using List.reverseRecOn with
  | nil => rfl
  | append_singleton pairs pair ih =>
    have hrest : ∀ p ∈ pairs, p.2.isHashable = true := fun p hp =>
      hpairs p (List.mem_append_left _ hp)
    have hlast : Entity.firstOf (format ns options.shortObjects pair.2) = _ :=
      firstOf_of_isHashable ((isHashable_format _ _).trans (hpairs pair (by simp)))
    rw [ofPairs_concat, firsts_addObject (filled_ofPairs hrest), hlast, ih hrest, List.map_append,
      List.map_cons, List.map_nil, keepFirst_concat]

def FirstsHashable (m : PropertyMap) : Prop :=
  ∀ e ∈ m.entries, (Entity.firstOf e.2).isHashable = true

theorem isHashable_firstOf_collect {old new : Value} (hold : (Entity.firstOf old).isHashable = true) :
    (Entity.firstOf (collect old new)).isHashable = true := by
  have hne : old ≠ .list [] := by
    rintro rfl
    contradiction
  rwa [(firstOf_collect new hne).2]

theorem FirstsHashable.addObject (h : m.FirstsHashable) (key : Value) {v : Value}
    (hv : v.isHashable = true) : (m.addObject key v).FirstsHashable := by
  have hfirst : (Entity.firstOf v).isHashable = true := by rwa [firstOf_of_isHashable hv]
  intro e he
  rcases mem_put he with hmem | ⟨-, hvalue⟩
  · exact h e hmem
  · rw [hvalue]
    unfold get?
    cases hold : m.entries.find? (·.1.eq key) with
    | none => exact hfirst
    | some old => exact isHashable_firstOf_collect (h old (List.mem_of_find?_eq_some hold))

/-- What holds of the empty map and is kept by each row holds of a map that is built. -/
theorem foldlM_addRow_induction {Q : PropertyMap → Prop} (h : Q m)
    (hstep : ∀ pair ∈ pairs, ∀ m, Q m → Q (m.addObject (format ns options.shortPredicates pair.1)
      (format ns options.shortObjects pair.2))) {m' : PropertyMap}
    (hfold : pairs.foldlM (addRow ns options) m = .ok m') : Q m' := by
  induction pairs generalizing m with
  | nil =>
    obtain rfl := Except.ok.inj hfold
    exact h
  | cons pair pairs ih =>
    rw [List.foldlM_cons] at hfold
    have hpair : ∀ next, addRow ns options m pair = .ok next → Q next := by
      intro next hnext
      unfold addRow at hnext
      split at hnext
      · obtain rfl := Except.ok.inj hnext
        exact h
      · split at hnext
        · contradiction
        · obtain rfl := Except.ok.inj hnext
          exact hstep pair List.mem_cons_self m h
    cases hnext : addRow ns options m pair with
    | error cause =>
      rw [hnext] at hfold
      contradiction
    | ok next =>
      rw [hnext] at hfold
      exact ih (hpair next hnext) (fun p hp => hstep p (List.mem_cons_of_mem _ hp)) hfold

variable {columns : TripleColumns} {sheet : Sheet} {subject : Value}

/-- What rows say about a subject stands in their cells. -/
theorem mem_cells_of_rowsOf (h : rowsOf sheet columns subject = .ok pairs) :
    ∀ pair ∈ pairs, ∃ row ∈ sheet.rows, ∃ p o, sheet.column? columns.predicate = some p ∧
      pair = (Sheet.cell row p, Sheet.cell row o) := by
  simp only [rowsOf, bind, Except.bind, pure, Except.pure] at h
  split at h
  · contradiction
  split at h
  · contradiction
  rename_i p hp
  split at h
  · contradiction
  rename_i o _
  obtain rfl := Except.ok.inj h
  have hplace : sheet.column? columns.predicate = some p := by
    unfold place at hp
    split at hp
    · rename_i hcolumn
      rw [hcolumn, Except.ok.inj hp]
    · contradiction
  intro pair hpair
  obtain ⟨⟨row, chosen⟩, hmem, hsome⟩ := List.mem_filterMap.1 hpair
  cases chosen with
  | false => contradiction
  | true =>
    obtain rfl := Option.some.inj hsome
    exact ⟨row, (List.of_mem_zip hmem).1, p, o, hplace, rfl⟩

/-- What holds of the empty map and is kept by what the cells of a row say holds of a map that is
built of the rows. -/
theorem build_induction {Q : PropertyMap → Prop} (h : Q empty)
    (hstep : ∀ row ∈ sheet.rows, ∀ p o, sheet.column? columns.predicate = some p → ∀ m, Q m →
      Q (m.addObject (format ns options.shortPredicates (Sheet.cell row p))
        (format ns options.shortObjects (Sheet.cell row o))))
    (hoptions : options.withSubject = false)
    (hbuild : build ns options columns sheet subject = .ok m) : Q m := by
  simp only [build, bind, Except.bind, pure, Except.pure, hoptions, Bool.false_eq_true,
    if_false] at hbuild
  split at hbuild
  · contradiction
  rename_i pairs hpairs
  split at hbuild
  · contradiction
  rename_i m' hfold
  obtain rfl := Except.ok.inj hbuild
  refine foldlM_addRow_induction h (fun pair hpair m hm => ?_) hfold
  obtain ⟨row, hrow, p, o, hp, rfl⟩ := mem_cells_of_rowsOf hpairs pair hpair
  exact hstep row hrow p o hp m hm

theorem isHashable_cell (hsheet : ∀ row ∈ sheet.rows, ∀ v ∈ row, v.isHashable = true)
    {row : List Value} (hrow : row ∈ sheet.rows) (place : Nat) : (Sheet.cell row place).isHashable = true := by
  unfold Sheet.cell
  rw [List.getD_eq_getElem?_getD]
  cases hget : row[place]? with
  | none => rfl
  | some v => exact hsheet row hrow v (List.mem_of_getElem? hget)

/-- The property map of a subject in a sheet of cells that can be looked up. -/
theorem firstsHashable_of_build (hsheet : ∀ row ∈ sheet.rows, ∀ v ∈ row, v.isHashable = true)
    (hoptions : options.withSubject = false) (h : build ns options columns sheet subject = .ok m) :
    m.FirstsHashable := by
  refine build_induction (fun e he => by simp [empty] at he) (fun row hrow _ o _ m hm => ?_)
    hoptions h
  exact hm.addObject _ ((isHashable_format _ _).trans (isHashable_cell hsheet hrow o))

end PropertyMap
end FormulaGraph
