import FormulaGraph.Proofs.Namespaces
import FormulaGraph.Proofs.Query.Columns
import FormulaGraph.Proofs.Query.Properties

/-! Property maps as groups of rows. The keys are the predicates in the order in which they come first,
and under each stand the objects of the rows that have it, without repetitions; full predicates have
different short forms, so that the groups are the same for both. -/
namespace FormulaGraph

namespace PropertyMap

variable {ns : Namespaces} {options : PropertyOptions} {m : PropertyMap}
  {pairs : List (Value × Value)} {key k v : Value}

theorem get?_congr (hm : ∀ e ∈ m.entries, e.1.isHashable = true) (hkey : key.isHashable = true)
    (h : key.eq k = true) : m.get? k = m.get? key := by
  unfold get?
  refine congrArg (Option.map Prod.snd) (List.find?_congr fun e he => ?_)
  rw [Bool.eq_iff_iff]
  exact ⟨fun hk => Value.eq_trans (hm e he) hk (Value.eq_symm hkey h),
    fun hk => Value.eq_trans (hm e he) hk h⟩

theorem find?_put (value : Value) {entries : List (Value × Value)}
    (hentries : ∀ e ∈ entries, e.1.isHashable = true) (hkey : key.isHashable = true) :
    ((put key value entries).find? (·.1.eq k)).map Prod.snd =
      if key.eq k then some value else (entries.find? (·.1.eq k)).map Prod.snd := by
  induction entries with
  | nil => cases h : key.eq k <;> simp [put, h]
  | cons e rest ih =>
    obtain ⟨name, w⟩ := e
    have hname : name.isHashable = true := hentries (name, w) List.mem_cons_self
    rw [put, List.find?_cons]
    by_cases hput : name.eq key = true
    · -- the entry that is replaced is found just if the key is
      have hsame : name.eq k = key.eq k := by
        rw [Bool.eq_iff_iff]
        exact ⟨fun h => Value.eq_trans hkey (Value.eq_symm hname hput) h,
          fun h => Value.eq_trans hname hput h⟩
      rw [if_pos hput, List.find?_cons]
      dsimp only
      rw [hsame]
      cases key.eq k <;> rfl
    · rw [if_neg hput, List.find?_cons]
      dsimp only
      cases hk : name.eq k with
      | true =>
        have hne : key.eq k = false := by
          refine Bool.eq_false_iff.2 fun h => hput ?_
          exact Value.eq_trans hname hk (Value.eq_symm hkey h)
        rw [hne]
        rfl
      | false => exact ih fun e he => hentries e (List.mem_cons_of_mem _ he)

theorem get?_insert (hm : ∀ e ∈ m.entries, e.1.isHashable = true) (hkey : key.isHashable = true)
    (v k : Value) : (m.insert key v).get? k = if key.eq k then some v else m.get? k :=
  find?_put v hm hkey

theorem get?_addObject (hm : ∀ e ∈ m.entries, e.1.isHashable = true)
    (hkey : key.isHashable = true) (v k : Value) : (m.addObject key v).get? k =
      if key.eq k then some ((m.get? k).elim v (collect · v)) else m.get? k := by
  rw [addObject, get?_insert hm hkey]
  split
  · rename_i h
    rw [get?_congr hm hkey h]
  · rfl

theorem keys_insert (m : PropertyMap) (key v : Value) : (m.insert key v).entries.map Prod.fst =
    if (m.entries.map Prod.fst).any (·.eq key) then m.entries.map Prod.fst
    else m.entries.map Prod.fst ++ [key] := by
  rw [List.any_map]
  exact map_fst_put key v m.entries

theorem keys_ofPairs (ns : Namespaces) (options : PropertyOptions) (pairs : List (Value × Value)) :
    (ofPairs ns options pairs).entries.map Prod.fst =
      keepFirst Value.eq (pairs.map fun pair => format ns options.shortPredicates pair.1) := by
  induction pairs using List.reverseRecOn with
  | nil => rfl
  | append_singleton pairs pair ih =>
    rw [ofPairs_concat, addObject, keys_insert, ih, List.map_append, List.map_cons, List.map_nil,
      keepFirst_concat]

theorem isHashable_of_mem_ofPairs (hpairs : ∀ pair ∈ pairs, pair.1.isHashable = true)
    {e : Value × Value} (he : e ∈ (ofPairs ns options pairs).entries) : e.1.isHashable = true := by
  have hkey := List.mem_map_of_mem (f := Prod.fst) he
  rw [keys_ofPairs] at hkey
  obtain ⟨pair, hpair, heq⟩ := List.mem_map.1 (mem_of_mem_keepFirst hkey)
  rw [← heq, isHashable_format]
  exact hpairs pair hpair

/-- What objects come to, taken in one after the other. -/
def gather (objects : List Value) : Option Value :=
  objects.foldl (fun old new => some (old.elim new (collect · new))) none

theorem gather_concat (objects : List Value) (v : Value) :
    gather (objects ++ [v]) = some ((gather objects).elim v (collect · v)) := by
  rw [gather, List.foldl_append, List.foldl_cons, List.foldl_nil]
  rfl

theorem get?_ofPairs (hpairs : ∀ pair ∈ pairs, pair.1.isHashable = true) (k : Value) :
    (ofPairs ns options pairs).get? k =
      gather ((pairs.filter fun pair => (format ns options.shortPredicates pair.1).eq k).map
        fun pair => format ns options.shortObjects pair.2) := by
  induction pairs using List.reverseRecOn with
  | nil => rfl
  | append_singleton pairs pair ih =>
    have hrest : ∀ p ∈ pairs, p.1.isHashable = true := fun p hp =>
      hpairs p (List.mem_append_left _ hp)
    have hkey : (format ns options.shortPredicates pair.1).isHashable = true := by
      rw [isHashable_format]
      exact hpairs pair (by simp)
    rw [ofPairs_concat, get?_addObject (fun e => isHashable_of_mem_ofPairs hrest) hkey, ih hrest,
      List.filter_append, List.map_append]
    cases h : (format ns options.shortPredicates pair.1).eq k with
    | false => simp [h]
    | true => simp [h, gather_concat]

/-- Several objects as a list, a single one bare. -/
def bundle : List Value → Option Value
  | [] => none
  | [v] => some v
  | objects => some (.list objects)

theorem bundle_concat {objects : List Value} (hobjects : ∀ v ∈ objects, v.isHashable = true)
    (v : Value) : some ((bundle objects).elim v (collect · v)) =
      bundle (if objects.any (·.eq v) then objects else objects ++ [v]) := by
  match objects, hobjects with
  | [], _ => rfl
  | [w], hw =>
    have hcollect : collect w v = if w.eq v then w else .list [w, v] := by
      have hhashable := hw w List.mem_cons_self
      cases w <;> first | rfl | contradiction
    rw [bundle, Option.elim_some, hcollect]
    cases h : w.eq v <;> simp [h, bundle]
  | w :: u :: rest, _ =>
    change some (if (w :: u :: rest).any (·.eq v) then _ else _) = _
    split <;> rfl

/-- Cells that can be looked up are gathered without repetitions. -/
theorem gather_eq_bundle {objects : List Value} (h : ∀ v ∈ objects, v.isHashable = true) :
    gather objects = bundle (keepFirst Value.eq objects) := by
  induction objects using List.reverseRecOn with
  | nil => rfl
  | append_singleton objects v ih =>
    have hrest : ∀ w ∈ objects, w.isHashable = true := fun w hw => h w (List.mem_append_left _ hw)
    rw [gather_concat, ih hrest, keepFirst_concat]
    exact bundle_concat (fun w hw => hrest w (mem_of_mem_keepFirst hw)) v

theorem gather_eq_none_iff {objects : List Value} : gather objects = none ↔ objects = [] := by
  induction objects using List.reverseRecOn with
  | nil => exact iff_of_true rfl rfl
  | append_singleton objects v => simp [gather_concat]

section Rows

variable {columns : TripleColumns} {sheet : Sheet} {subject : String} {p o : Nat}

def subjectRows (sheet : Sheet) (columns : TripleColumns) (subject : String) : List (List Value) :=
  match sheet.column? columns.subject with
  | none => sheet.rows
  | some s => sheet.rows.filter fun row => (Sheet.cell row s).eq (.text subject)

theorem filterMap_zip_map {α β : Type} (rows : List α) (chosen : α → Bool) (f : α → β) :
    (rows.zip (rows.map chosen)).filterMap (fun x => if x.2 then some (f x.1) else none) =
      (rows.filter chosen).map f := by
  induction rows with
  | nil => rfl
  | cons row rows ih =>
    rw [List.map_cons, List.zip_cons_cons, List.filterMap_cons, List.filter_cons, ih]
    cases chosen row <;> rfl

theorem rowsOf_eq (hp : sheet.column? columns.predicate = some p)
    (ho : sheet.column? columns.object = some o) (subject : String) :
    rowsOf sheet columns (.text subject) = .ok ((subjectRows sheet columns subject).map fun row =>
      (Sheet.cell row p, Sheet.cell row o)) := by
  have hplace : place sheet columns.predicate = .ok p ∧ place sheet columns.object = .ok o := by
    unfold place
    rw [hp, ho]
    exact ⟨rfl, rfl⟩
  simp only [rowsOf, subjectRows, about, hplace.1, hplace.2, bind, Except.bind, pure, Except.pure]
  cases hs : sheet.column? columns.subject with
  | none =>
    dsimp only
    rw [filterMap_zip_map sheet.rows (fun _ => true) fun row =>
      (Sheet.cell row p, Sheet.cell row o), List.filter_eq_self.2 fun _ _ => rfl]
  | some s =>
    have hmatching : Column.matching ⟨.mixed, sheet.rows.map (Sheet.cell · s)⟩ (.text subject) =
        .ok (sheet.rows.map fun row => (Sheet.cell row s).eq (.text subject)) := by
      change Except.ok ((sheet.rows.map (Sheet.cell · s)).map (·.equals (.text subject))) = _
      rw [List.map_map]
      exact congrArg Except.ok (List.map_congr_left fun row _ => Value.equals_text _ _)
    dsimp only
    rw [hmatching]
    dsimp only
    rw [filterMap_zip_map sheet.rows _ fun row => (Sheet.cell row p, Sheet.cell row o)]

/-- The objects of the rows whose predicate, written as `write` says, is `k`; missing ones are left
out. -/
def objectsOf (ns : Namespaces) (options : PropertyOptions) (p o : Nat) (write : Value → Value)
    (rows : List (List Value)) (k : Value) : List Value :=
  (rows.filter fun row =>
    !(Sheet.cell row o).isMissing && (write (Sheet.cell row p)).eq k).map fun row =>
      format ns options.shortObjects (Sheet.cell row o)

theorem objectsOf_ne_nil_iff {write : Value → Value} {rows : List (List Value)} :
    objectsOf ns options p o write rows k ≠ [] ↔ ∃ row ∈ rows,
      (Sheet.cell row o).isMissing = false ∧ (write (Sheet.cell row p)).eq k = true := by
  simp [objectsOf, List.filter_eq_nil_iff]

theorem isHashable_of_mem_objectsOf {write : Value → Value} {rows : List (List Value)}
    (hrows : ∀ row ∈ rows, (Sheet.cell row o).isHashable = true) :
    ∀ v ∈ objectsOf ns options p o write rows k, v.isHashable = true := by
  intro v hv
  obtain ⟨row, hrow, rfl⟩ := List.mem_map.1 hv
  rw [isHashable_format]
  exact hrows row (List.mem_of_mem_filter hrow)

theorem mem_rows_of_subjectRows {row : List Value} (h : row ∈ subjectRows sheet columns subject) :
    row ∈ sheet.rows := by
  unfold subjectRows at h
  split at h
  · exact h
  · exact List.mem_of_mem_filter h

/-- Full forms have different short forms. -/
theorem eq_format {v w : Value} (hv : ns.extendValue v = v) (hw : ns.extendValue w = w)
    (short : Bool) : (format ns short v).eq (format ns short w) = v.eq w := by
  cases short with
  | false => rw [format, format, if_neg Bool.false_ne_true, if_neg Bool.false_ne_true, hv, hw]
  | true =>
    rw [format, format, if_pos rfl, if_pos rfl]
    cases v with
    | text s =>
      cases w with
      | text t =>
        have hs : ns.extend s = s := by simpa [Namespaces.extendValue] using hv
        have ht : ns.extend t = t := by simpa [Namespaces.extendValue] using hw
        have hiff : ns.shorten s = ns.shorten t ↔ s = t := by
          refine ⟨fun h => ?_, congrArg ns.shorten⟩
          rw [← Namespaces.extend_shorten hs, h, Namespaces.extend_shorten ht]
        rw [Bool.eq_iff_iff]
        simpa [Namespaces.shortenValue, Value.eq] using hiff
      | _ => rfl
    | _ => cases w <;> rfl

/-- The key of the subject is no short form of anything else. -/
theorem eq_subjectKey_of_format (hk : ns.extendValue k = k) {short : Bool}
    (h : (format ns short k).eq subjectKey = true) : k.eq subjectKey = true := by
  cases short with
  | false => rwa [format, if_neg Bool.false_ne_true, hk] at h
  | true =>
    rw [format, if_pos rfl] at h
    cases k with
    | text s =>
      have hs : ns.extend s = s := by simpa [Namespaces.extendValue] using hk
      have hshort : ns.shorten s = "_idUri" := by
        simpa [Namespaces.shortenValue, subjectKey, Value.eq] using h
      obtain rfl : s = "_idUri" := by
        rw [← Namespaces.extend_shorten hs, hshort]
        rfl
      exact (Value.isCell_text _).self
    | _ => exact h

theorem objectsOf_format {rows : List (List Value)}
    (hfull : ∀ row ∈ rows, ns.extendValue (Sheet.cell row p) = Sheet.cell row p)
    (hk : ns.extendValue k = k) (short : Bool) :
    objectsOf ns options p o (format ns short) rows (format ns short k) =
      objectsOf ns options p o id rows k := by
  unfold objectsOf
  refine congrArg (List.map _) (List.filter_congr fun row hrow => ?_)
  rw [eq_format (hfull row hrow) hk]
  rfl

variable (ns options subject) in
/-- What a map says that was built of the rows of a subject. -/
theorem build_rows (hp : sheet.column? columns.predicate = some p)
    (ho : sheet.column? columns.object = some o)
    (hpredicates : ∀ row ∈ sheet.rows, (Sheet.cell row p).isHashable = true) :
    ∃ m, build ns options columns sheet (.text subject) = .ok m ∧
      m.entries.map Prod.fst = keepFirst Value.eq
        ((((subjectRows sheet columns (ns.extend subject)).filter fun row =>
            !(Sheet.cell row o).isMissing).map fun row =>
            format ns options.shortPredicates (Sheet.cell row p)) ++
          if options.withSubject then [subjectKey] else []) ∧
      ∀ k, (options.withSubject = true → k.eq subjectKey = false) →
        m.get? k = gather (objectsOf ns options p o (format ns options.shortPredicates)
          (subjectRows sheet columns (ns.extend subject)) k) := by
  let cells : List Value → Value × Value := fun row => (Sheet.cell row p, Sheet.cell row o)
  have hrows : rowsOf sheet columns (ns.extendValue (.text subject)) =
      .ok ((subjectRows sheet columns (ns.extend subject)).map cells) := rowsOf_eq hp ho _
  generalize hsubject : subjectRows sheet columns (ns.extend subject) = rows at hrows ⊢
  have hhashable : ∀ pair ∈ rows.map cells, pair.1.isHashable = true := by
    intro pair hpair
    obtain ⟨row, hrow, rfl⟩ := List.mem_map.1 hpair
    exact hpredicates row (mem_rows_of_subjectRows (hsubject ▸ hrow))
  have hpresent : present (rows.map cells) =
      (rows.filter fun row => !(Sheet.cell row o).isMissing).map cells := List.filter_map
  have hkeys : ∀ pair ∈ present (rows.map cells), pair.1.isHashable = true := fun pair hpair =>
    hhashable pair (List.mem_of_mem_filter hpair)
  have hget : ∀ k, (ofPairs ns options (present (rows.map cells))).get? k =
      gather (objectsOf ns options p o (format ns options.shortPredicates) rows k) := by
    intro k
    rw [get?_ofPairs hkeys, hpresent, List.filter_map, List.filter_filter, List.map_map]
    simp only [objectsOf, cells, Function.comp_def, Bool.and_comm]
  have hnames : (ofPairs ns options (present (rows.map cells))).entries.map Prod.fst =
      keepFirst Value.eq ((rows.filter fun row => !(Sheet.cell row o).isMissing).map fun row =>
        format ns options.shortPredicates (Sheet.cell row p)) := by
    rw [keys_ofPairs, hpresent, List.map_map]
    rfl
  refine ⟨_, build_ofPairs hrows hhashable, ?_⟩
  cases hoptions : options.withSubject with
  | false =>
    rw [if_neg Bool.false_ne_true, if_neg Bool.false_ne_true, List.append_nil]
    exact ⟨hnames, fun k _ => hget k⟩
  | true =>
    rw [if_pos rfl, if_pos rfl]
    refine ⟨?_, fun k hk => ?_⟩
    · rw [keys_insert, hnames, keepFirst_concat]
    · have hne : subjectKey.eq k = false := by
        refine Bool.eq_false_iff.2 fun h => ?_
        rw [Value.eq_symm rfl h] at hk
        exact Bool.noConfusion (hk rfl)
      rw [get?_insert (fun e => isHashable_of_mem_ofPairs hkeys) rfl, hne]
      exact hget k

end Rows

/-- A property map groups the rows of a subject: its keys are the predicates of the rows whose object
is there, as they are written, in the order in which they come first; under each of them stand the
objects of these rows, in their order and without repetitions, a single one bare. Full predicates
share no key, so that they have the same groups in short and in full form. -/
theorem build_groups (ns : Namespaces) (options : PropertyOptions) (columns : TripleColumns)
    (sheet : Sheet) (subject : String) {p o : Nat}
    (hp : sheet.column? columns.predicate = some p) (ho : sheet.column? columns.object = some o)
    (hcells : ∀ row ∈ sheet.rows, ∀ v ∈ row, v.isHashable = true) :
    let rows := subjectRows sheet columns (ns.extend subject)
    let write := format ns options.shortPredicates
    ∃ m, build ns options columns sheet (.text subject) = .ok m ∧
      m.entries.map Prod.fst = keepFirst Value.eq
        (((rows.filter fun row => !(Sheet.cell row o).isMissing).map fun row =>
            write (Sheet.cell row p)) ++ if options.withSubject then [subjectKey] else []) ∧
      (∀ k, (options.withSubject = true → k.eq subjectKey = false) →
        ((m.get? k).isSome = true ↔ ∃ row ∈ rows,
          (Sheet.cell row o).isMissing = false ∧ (write (Sheet.cell row p)).eq k = true) ∧
        m.get? k = bundle (keepFirst Value.eq (objectsOf ns options p o write rows k))) ∧
      ((∀ row ∈ rows, ns.extendValue (Sheet.cell row p) = Sheet.cell row p) →
        (∀ row ∈ rows, ∀ row' ∈ rows, (write (Sheet.cell row p)).eq (write (Sheet.cell row' p)) =
          (Sheet.cell row p).eq (Sheet.cell row' p)) ∧
        ∀ m', build ns { options with shortPredicates := !options.shortPredicates } columns sheet
            (.text subject) = .ok m' →
          ∀ q, ns.extendValue q = q → (options.withSubject = true → q.eq subjectKey = false) →
            m.get? (write q) = m'.get? (format ns (!options.shortPredicates) q)) := by
  intro rows write
  have hpredicates : ∀ row ∈ sheet.rows, (Sheet.cell row p).isHashable = true := fun row hrow =>
    isHashable_cell hcells hrow p
  obtain ⟨m, hm, hkeys, hget⟩ := build_rows ns options subject hp ho hpredicates
  refine ⟨m, hm, hkeys, fun k hk => ⟨?_, ?_⟩, fun hfull => ⟨fun row hrow row' hrow' =>
    eq_format (hfull row hrow) (hfull row' hrow') _, fun m' hm' q hq hne => ?_⟩⟩
  · rw [hget k hk, Option.isSome_iff_ne_none, Ne, gather_eq_none_iff]
    exact objectsOf_ne_nil_iff
  · rw [hget k hk]
    refine gather_eq_bundle (isHashable_of_mem_objectsOf fun row hrow => ?_)
    exact isHashable_cell hcells (mem_rows_of_subjectRows hrow) o
  · -- both maps have the objects of the rows with this very predicate
    obtain ⟨m'', hm'', -, hget'⟩ := build_rows ns
      { options with shortPredicates := !options.shortPredicates } subject hp ho hpredicates
    obtain rfl : m' = m'' := Except.ok.inj (hm'.symm.trans hm'')
    have hkey : ∀ short, options.withSubject = true → (format ns short q).eq subjectKey = false :=
      fun short hsubject => Bool.eq_false_iff.2 fun h => by
        rw [eq_subjectKey_of_format hq h] at hne
        exact Bool.noConfusion (hne hsubject)
    rw [hget _ (hkey _), hget' _ (hkey _), objectsOf_format hfull hq, objectsOf_format hfull hq]
    rfl

/-- Two predicates of a subject, one of them with a repeated object, and an object of another one. -/
theorem build_groups_alias :
    let ns := (Namespaces.standard.add "p" "http://u/").add "q" "http://u/"
    let row : String → String → String → List Value := fun s p o => [.text s, .text p, .text o]
    let sheet : Sheet := ⟨["s", "p", "o"], [row "http://u/d" "http://u/a" "1",
      row "http://u/d" "http://u/b" "2", row "http://u/e" "http://u/a" "3",
      row "http://u/d" "http://u/a" "4", row "http://u/d" "http://u/a" "1"]⟩
    ∃ m m', build ns {} {} sheet (.text "q:d") = .ok m ∧
      build ns { shortPredicates := false } {} sheet (.text "q:d") = .ok m' ∧
      m.entries.map Prod.fst = [.text "p:a", .text "p:b", .text "_idUri"] ∧
      m.get? (.text "p:a") = some (.list [.text "1", .text "4"]) ∧
      m.get? (.text "p:b") = some (.text "2") ∧
      m'.get? (.text "http://u/a") = m.get? (.text "p:a") := by
  intro ns row sheet
  have hcells : ∀ row ∈ sheet.rows, ∀ v ∈ row, v.isHashable = true := by decide +kernel
  obtain ⟨m, hm, hkeys, hget, hfull⟩ :=
    build_groups ns {} {} sheet "q:d" (rfl : _ = some 1) (rfl : _ = some 2) hcells
  obtain ⟨m', hm', -, -, -⟩ := build_groups ns { shortPredicates := false } {} sheet "q:d"
    (rfl : _ = some 1) (rfl : _ = some 2) hcells
  have hpredicates : ∀ row ∈ subjectRows sheet {} (ns.extend "q:d"),
      ns.extendValue (Sheet.cell row 1) = Sheet.cell row 1 := List.map_inj_left.1 (by rfl)
  obtain ⟨-, hsame⟩ := hfull hpredicates
  refine ⟨m, m', hm, hm', hkeys.trans (by rfl), (hget (.text "p:a") fun _ => rfl).2.trans (by rfl),
    (hget (.text "p:b") fun _ => rfl).2.trans (by rfl), ?_⟩
  exact (hsame m' hm' (.text "http://u/a") (by rfl) fun _ => rfl).symm

end PropertyMap
end FormulaGraph
