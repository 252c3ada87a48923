import FormulaGraph.Proofs.Lists
import FormulaGraph.Proofs.Query.Comparison

/-! Joins under comparison by equality: each row of the first sheet is extended by every row of the
second one that agrees with it on the common columns. -/
namespace FormulaGraph

namespace Column

theorem rows_map {α β : Type} {f : β → α → Value} {xs : List α} {names : List β}
    {columns : List Column} (h : columns.map cells = names.map fun x => xs.map (f x)) :
    rows xs.length columns = xs.map fun a => names.map (f · a) := by
  induction names generalizing columns with
  | nil =>
    obtain rfl := List.map_eq_nil_iff.1 h
    exact List.map_const'.symm
  | cons x names ih =>
    cases columns with
    | nil => simp at h
    | cons column columns =>
      rw [List.map_cons, List.map_cons, List.cons.injEq] at h
      have hrest := ih h.2
      unfold rows at hrest ⊢
      rw [List.foldr_cons, hrest, h.1, List.zipWith_map, List.zipWith_self]
      rfl

end Column

namespace Sheet

variable {c : Comparer} {cell constant : Value → Prop} {ns : Namespaces}
variable {sheet left right : Sheet} {row : List Value}

def value (sheet : Sheet) (row : List Value) (name : String) : Value :=
  Sheet.cell row ((sheet.column? name).getD 0)

/-- Rows of full length under columns with different names. -/
structure Regular (sheet : Sheet) : Prop where
  nodup : sheet.columns.Nodup
  length : ∀ row ∈ sheet.rows, row.length = sheet.columns.length

/-- Rows of full length under columns with different names, whose cells compare like cells of a
class. -/
structure Tidy (ns : Namespaces) (cell : Value → Prop) (sheet : Sheet) : Prop where
  nodup : sheet.columns.Nodup
  length : ∀ row ∈ sheet.rows, row.length = sheet.columns.length
  cells : ∀ row ∈ sheet.rows, ∀ v ∈ row, cell (ns.comparisonKey v)

def keysAt (ns : Namespaces) (sheet : Sheet) (names : List String) (row : List Value) :
    List Value := names.map fun name => ns.comparisonKey (sheet.value row name)

theorem exists_column? {name : String} (hname : name ∈ sheet.columns) :
    ∃ place, sheet.column? name = some place ∧
      ∃ h : place < sheet.columns.length, sheet.columns[place] = name := by
  cases h : sheet.column? name with
  | none =>
    have hall := List.findIdx?_eq_none_iff.1 h name hname
    simp at hall
  | some place =>
    obtain ⟨hlt, hplace, -⟩ := List.findIdx?_eq_some_iff_getElem.1 h
    exact ⟨place, rfl, hlt, beq_iff_eq.1 hplace⟩

theorem value_mem {name : String} (hname : name ∈ sheet.columns)
    (hlength : row.length = sheet.columns.length) : sheet.value row name ∈ row := by
  obtain ⟨place, hplace, hlt, -⟩ := exists_column? hname
  rw [← hlength] at hlt
  unfold value Sheet.cell
  rw [hplace, Option.getD_some, List.getD_eq_getElem _ _ hlt]
  exact List.getElem_mem hlt

theorem column?_getElem (hnodup : sheet.columns.Nodup) {place : Nat}
    (h : place < sheet.columns.length) : sheet.column? sheet.columns[place] = some place := by
  refine List.findIdx?_eq_some_iff_getElem.2 ⟨h, by simp, fun other hlt => ?_⟩
  have hne : ¬ sheet.columns[other] = sheet.columns[place] :=
    mt hnodup.getElem_inj_iff.1 hlt.ne
  simpa using hne

theorem value_map {f : String → Value} {name : String} (hname : name ∈ sheet.columns) :
    sheet.value (sheet.columns.map f) name = f name := by
  obtain ⟨place, hplace, hlt, heq⟩ := exists_column? hname
  have hlt' : place < (sheet.columns.map f).length := by simpa using hlt
  rw [value, hplace, Option.getD_some, Sheet.cell, List.getD_eq_getElem _ _ hlt', List.getElem_map,
    heq]

theorem map_placesOf (test : String → Bool) :
    (sheet.placesOf test).map (sheet.columns.getD · "") = sheet.columns.filter test := by
  unfold placesOf
  have hcolumns : sheet.columns =
      (List.range sheet.columns.length).map (sheet.columns.getD · "") := by
    refine List.ext_getElem (by simp) fun place h _ => ?_
    rw [List.getElem_map, List.getElem_range, List.getD_eq_getElem _ _ h]
  conv_rhs => rw [hcolumns, List.filter_map]
  rfl

theorem map_cell_placesOf (hnodup : sheet.columns.Nodup) (test : String → Bool)
    (row : List Value) :
    (sheet.placesOf test).map (Sheet.cell row) =
      (sheet.columns.filter test).map (sheet.value row) := by
  rw [← map_placesOf, List.map_map]
  refine List.map_congr_left fun place hplace => ?_
  have hlt : place < sheet.columns.length :=
    List.mem_range.1 (List.mem_of_mem_filter hplace)
  rw [Function.comp_apply, List.getD_eq_getElem _ _ hlt, value, column?_getElem hnodup hlt]
  rfl

theorem map_value_columns (hnodup : sheet.columns.Nodup)
    (hlength : row.length = sheet.columns.length) : sheet.columns.map (sheet.value row) = row := by
  refine List.ext_getElem (by simp [hlength]) fun place h h' => ?_
  rw [List.length_map] at h
  rw [List.getElem_map, value, column?_getElem hnodup h, Option.getD_some, Sheet.cell,
    List.getD_eq_getElem _ _ h']

/-- Columns of cells can be brought together, and their cells stay as they are. -/
theorem exists_unified (hc : c.ByEquality cell constant) (l r : String → List Value)
    {names : List String} (hl : ∀ x ∈ names, ∀ v ∈ l x, cell v)
    (hr : ∀ x ∈ names, ∀ v ∈ r x, cell v) :
    ∃ leftKeys rightKeys unified, names.mapM (fun x => c.column (l x)) = .ok leftKeys ∧
      names.mapM (fun x => c.column (r x)) = .ok rightKeys ∧
      (leftKeys.zip rightKeys).mapM (fun p => c.unify p.1 p.2) = .ok unified ∧
      (unified.map Prod.fst).map Column.cells = names.map l ∧
      (unified.map Prod.snd).map Column.cells = names.map r := by
  induction names with
  | nil => exact ⟨[], [], [], rfl, rfl, rfl, rfl, rfl⟩
  | cons x names ih =>
    obtain ⟨leftKeys, rightKeys, unified, hleft, hright, hunified, hfst, hsnd⟩ :=
      ih (fun y hy => hl y (List.mem_cons_of_mem _ hy)) fun y hy => hr y (List.mem_cons_of_mem _ hy)
    obtain ⟨a, ha⟩ := hc.column (hl x List.mem_cons_self)
    obtain ⟨b, hb⟩ := hc.column (hr x List.mem_cons_self)
    obtain ⟨a', b', hab, ha', hb'⟩ :=
      hc.unify (hl x List.mem_cons_self) (hr x List.mem_cons_self) ha hb
    refine ⟨a :: leftKeys, b :: rightKeys, (a', b') :: unified, ?_, ?_, ?_, ?_, ?_⟩
    · exact mapM_eq_ok_iff.2 (.cons ha (mapM_eq_ok_iff.1 hleft))
    · exact mapM_eq_ok_iff.2 (.cons hb (mapM_eq_ok_iff.1 hright))
    · exact mapM_eq_ok_iff.2 (.cons hab (mapM_eq_ok_iff.1 hunified))
    · simp only [List.map_cons, ha', hfst]
    · simp only [List.map_cons, hb', hsnd]

theorem pair_map {α β : Type} (xs : List α) (ys : List β) (k l : α → List Value)
    (m r : β → List Value) :
    pair ((xs.map k).zip (xs.map l)) ((ys.map m).zip (ys.map r)) =
      xs.flatMap fun x => (ys.filter fun y => rowsAgree (k x) (m y)).map fun y => l x ++ r y := by
  unfold pair
  rw [List.zip_map', List.zip_map', List.flatMap_map]
  refine congrArg (xs.flatMap ·) (funext fun x => ?_)
  rw [List.filter_map, List.map_map]
  rfl

def shared (left right : Sheet) : List String := right.columns.filter left.columns.contains

/-- The names that the second sheet adds to those of the first. -/
def fresh (left right : Sheet) : List String := right.columns.filter (!left.columns.contains ·)

theorem mem_shared {x : String} (hx : x ∈ left.shared right) :
    x ∈ left.columns ∧ x ∈ right.columns := by
  rw [shared, List.mem_filter, List.contains_iff_mem] at hx
  exact hx.symm

/-- The cells under a name compare like cells of a class. -/
def ComparesUnder (ns : Namespaces) (cell : Value → Prop) (sheet : Sheet) (name : String) : Prop :=
  ∀ row ∈ sheet.rows, cell (ns.comparisonKey (sheet.value row name))

theorem Tidy.comparesUnder (ht : sheet.Tidy ns cell) {name : String} (hname : name ∈ sheet.columns) :
    sheet.ComparesUnder ns cell name := fun row hrow =>
  ht.cells row hrow _ (value_mem hname (ht.length row hrow))

theorem hashable_keysAt (hc : c.ByEquality cell constant) {names : List String}
    (ht : ∀ x ∈ names, sheet.ComparesUnder ns cell x) :
    ∀ keys ∈ sheet.rows.map (sheet.keysAt ns names), keys.all Value.isHashable = true := by
  intro keys hkeys
  obtain ⟨row, hrow, rfl⟩ := List.mem_map.1 hkeys
  rw [List.all_eq_true]
  intro v hv
  obtain ⟨x, hx, rfl⟩ := List.mem_map.1 hv
  exact (hc.isCell _ (ht x hx row hrow)).hashable

/-- No column of either sheet has the name under which a join puts the keys of a column. -/
def KeyNamesFree (left right : Sheet) : Prop :=
  ∀ x ∈ right.columns, ∀ y, y ∈ left.columns ∨ y ∈ right.columns → keyName x ≠ y

section KeyNames

variable (hnames : left.KeyNamesFree right)
include hnames

theorem KeyNamesFree.contains_eq_false {y : String} (hy : y ∈ left.columns ∨ y ∈ right.columns) :
    ((left.shared right).map keyName).contains y = false := by
  rw [Bool.eq_false_iff, ne_eq, List.contains_iff_mem, List.mem_map]
  rintro ⟨x, hx, hxy⟩
  exact hnames x (mem_shared hx).2 y hy hxy

/-- The keys of one shared column do not take the place of another one. -/
theorem KeyNamesFree.find?_eq_none :
    ((left.shared right).map keyName).find? (left.shared right).contains = none := by
  rw [List.find?_eq_none]
  intro y hy hcontains
  obtain ⟨x, hx, rfl⟩ := List.mem_map.1 hy
  rw [List.contains_iff_mem] at hcontains
  exact hnames x (mem_shared hx).2 _ (Or.inr (mem_shared hcontains).2) rfl

theorem KeyNamesFree.filter_left :
    left.columns.filter (fun x => !((left.shared right).map keyName).contains x) =
      left.columns :=
  List.filter_eq_self.2 fun x hx => by rw [hnames.contains_eq_false (Or.inl hx), Bool.not_false]

theorem KeyNamesFree.filter_right :
    right.columns.filter (fun x => !(left.shared right).contains x &&
      !((left.shared right).map keyName).contains x) = left.fresh right := by
  refine List.filter_congr fun x hx => ?_
  have hmem : (left.shared right).contains x = left.columns.contains x := by
    rw [Bool.eq_iff_iff, List.contains_iff_mem, shared, List.mem_filter]
    exact and_iff_right hx
  rw [hnames.contains_eq_false (Or.inr hx), hmem, Bool.not_false, Bool.and_true]

end KeyNames

/-- A join, unless one of its columns has the name of the keys of another one. Only the cells of
common columns are compared. -/
theorem join_of_shared (hc : c.ByEquality cell constant) (hl : left.Regular) (hr : right.Regular)
    (hleft : ∀ x ∈ left.shared right, left.ComparesUnder ns cell x)
    (hright : ∀ x ∈ left.shared right, right.ComparesUnder ns cell x)
    (hnames : left.KeyNamesFree right) :
    left.join c ns right = .ok ⟨left.columns ++ left.fresh right,
      left.rows.flatMap fun l => (right.rows.filter fun r =>
        rowsAgree (left.keysAt ns (left.shared right) l) (right.keysAt ns (left.shared right) r)).map
          fun r => l ++ (left.fresh right).map (right.value r)⟩ := by
  have hcells : ∀ {sheet : Sheet} {x : String}, sheet.ComparesUnder ns cell x →
      ∀ v ∈ sheet.rows.map fun row => ns.comparisonKey (sheet.value row x), cell v := by
    intro sheet x hx v hv
    obtain ⟨row, hrow, rfl⟩ := List.mem_map.1 hv
    exact hx row hrow
  obtain ⟨leftKeys, rightKeys, unified, hleftKeys, hrightKeys, hunified, hfst, hsnd⟩ :=
    exists_unified hc _ _ (fun x hx => hcells (hleft x hx)) fun x hx => hcells (hright x hx)
  have hleftKeys : (left.shared right).mapM (left.keys c ns) = .ok leftKeys := hleftKeys
  have hrightKeys : (left.shared right).mapM (right.keys c ns) = .ok rightKeys := hrightKeys
  have hguard : (!left.rows.isEmpty && !right.rows.isEmpty &&
      !(left.rows.map (left.keysAt ns (left.shared right)) ++
        right.rows.map (right.keysAt ns (left.shared right))).all (·.all Value.isHashable)) =
      false := by
    rw [List.all_append, List.all_eq_true.2 (hashable_keysAt hc hleft),
      List.all_eq_true.2 (hashable_keysAt hc hright), Bool.and_self, Bool.not_true,
      Bool.and_false]
  have hshared : right.columns.filter left.columns.contains = left.shared right := rfl
  have hrows : left.rows.map (fun row => left.columns.map (left.value row)) = left.rows.map id :=
    List.map_congr_left fun row hrow => map_value_columns hl.nodup (hl.length row hrow)
  unfold join
  simp only [hshared, hleftKeys, hrightKeys, hnames.find?_eq_none, hunified, Column.rows_map hfst,
    Column.rows_map hsnd, bind, Except.bind, pure, Except.pure]
  change (if (!left.rows.isEmpty && !right.rows.isEmpty &&
      !(left.rows.map (left.keysAt ns (left.shared right)) ++
        right.rows.map (right.keysAt ns (left.shared right))).all (·.all Value.isHashable)) = true
    then _ else _) = _
  rw [hguard]
  simp only [Bool.false_eq_true, if_false, map_placesOf, map_cell_placesOf hl.nodup,
    map_cell_placesOf hr.nodup, hnames.filter_left, hnames.filter_right, hrows, pair_map]
  rfl

theorem join_eq (hc : c.ByEquality cell constant) (hl : left.Tidy ns cell)
    (hr : right.Tidy ns cell) (hnames : left.KeyNamesFree right) :
    left.join c ns right = .ok ⟨left.columns ++ left.fresh right,
      left.rows.flatMap fun l => (right.rows.filter fun r =>
        rowsAgree (left.keysAt ns (left.shared right) l) (right.keysAt ns (left.shared right) r)).map
          fun r => l ++ (left.fresh right).map (right.value r)⟩ :=
  join_of_shared hc ⟨hl.nodup, hl.length⟩ ⟨hr.nodup, hr.length⟩
    (fun _ hx => hl.comparesUnder (mem_shared hx).1)
    (fun _ hx => hr.comparesUnder (mem_shared hx).2) hnames

theorem project_columns (hnodup : sheet.columns.Nodup)
    (hlength : ∀ row ∈ sheet.rows, row.length = sheet.columns.length) :
    sheet.project sheet.columns = .ok sheet := by
  have hplaces : ∀ f : String → Except ColumnError Nat,
      (∀ name place, sheet.column? name = some place → f name = .ok place) →
      sheet.columns.mapM f = .ok (List.range sheet.columns.length) := by
    intro f hf
    refine mapM_eq_ok_iff.2 (List.forall₂_iff_get.2 ⟨by simp, fun place h _ => ?_⟩)
    rw [List.get_eq_getElem, List.get_eq_getElem, List.getElem_range]
    exact hf _ _ (column?_getElem hnodup h)
  have hrows : sheet.rows.map (fun row => (List.range sheet.columns.length).map (Sheet.cell row)) =
      sheet.rows.map id := by
    refine List.map_congr_left fun row hrow => ?_
    refine List.ext_getElem (by simp [hlength row hrow]) fun place h h' => ?_
    rw [List.getElem_map, List.getElem_range]
    exact List.getD_eq_getElem _ _ h'
  unfold project
  rw [hplaces _ fun name place hplace => by rw [hplace]]
  change Except.ok (Sheet.mk sheet.columns _) = _
  rw [hrows, List.map_id]

section Under

variable {joined projected : Sheet} {P : Value → Prop} {name : String} {names : List String}

/-- The cells under a name that a sheet has are of a class. -/
structure HasUnder (sheet : Sheet) (name : String) (P : Value → Prop) : Prop where
  mem : name ∈ sheet.columns
  cells : ∀ place, sheet.columns[place]? = some name → ∀ row ∈ sheet.rows, P (Sheet.cell row place)

/-- The rows of a join are those of both sheets, without the columns of keys. -/
theorem exists_of_join (h : left.join c ns right = .ok joined) :
    let keyNames := (left.shared right).map keyName
    let kept := left.placesOf (!keyNames.contains ·)
    let added := right.placesOf fun name =>
      !(left.shared right).contains name && !keyNames.contains name
    joined.columns = kept.map (left.columns.getD · "") ++ added.map (right.columns.getD · "") ∧
      ∀ row ∈ joined.rows, ∃ l ∈ left.rows, ∃ r ∈ right.rows,
        row = kept.map (Sheet.cell l) ++ added.map (Sheet.cell r) := by
  have hpair : ∀ (lk rk ls rs : List (List Value)), ∀ row ∈ pair (lk.zip ls) (rk.zip rs),
      ∃ l ∈ ls, ∃ r ∈ rs, row = l ++ r := by
    intro lk rk ls rs row hrow
    obtain ⟨l, hl, hmem⟩ := List.mem_flatMap.1 hrow
    obtain ⟨r, hr, rfl⟩ := List.mem_map.1 hmem
    exact ⟨_, (List.of_mem_zip hl).2, _, (List.of_mem_zip (List.mem_of_mem_filter hr)).2, rfl⟩
  simp only [Sheet.join, bind, Except.bind, pure, Except.pure, throw, throwThe,
    MonadExceptOf.throw] at h
  split at h
  · contradiction
  split at h
  · contradiction
  split at h
  · contradiction
  split at h
  · contradiction
  split at h
  · contradiction
  obtain rfl := Except.ok.inj h
  refine ⟨rfl, fun row hrow => ?_⟩
  obtain ⟨_, hl, _, hr, rfl⟩ := hpair _ _ _ _ row hrow
  obtain ⟨l, hleft, rfl⟩ := List.mem_map.1 hl
  obtain ⟨r, hright, rfl⟩ := List.mem_map.1 hr
  exact ⟨l, hleft, r, hright, rfl⟩

/-- A join keeps the cells of the first sheet. -/
theorem HasUnder.join (h : left.HasUnder name P) (hname : ¬ "__key_".toList <+: name.toList)
    (hjoin : left.join c ns right = .ok joined) : joined.HasUnder name P := by
  obtain ⟨hcolumns, hrows⟩ := exists_of_join hjoin
  have hfree : ((left.shared right).map keyName).contains name = false := by
    rw [Bool.eq_false_iff, ne_eq, List.contains_iff_mem, List.mem_map]
    rintro ⟨x, -, rfl⟩
    exact hname (by simp [keyName])
  constructor
  · rw [hcolumns, map_placesOf]
    exact List.mem_append_left _ (List.mem_filter.2 ⟨h.mem, by rw [hfree, Bool.not_false]⟩)
  · intro place hplace row hrow
    obtain ⟨l, hl, r, -, rfl⟩ := hrows row hrow
    rw [hcolumns, List.getElem?_append, List.length_map] at hplace
    unfold cell
    rw [List.getD_eq_getElem?_getD, List.getElem?_append, List.length_map]
    split at hplace
    · rename_i hlt
      obtain ⟨k, hk, hname⟩ := Option.map_eq_some_iff.1 (List.getElem?_map ▸ hplace)
      have hmem := List.mem_range.1 (List.mem_of_mem_filter (List.mem_of_getElem? hk))
      rw [if_pos hlt, List.getElem?_map, hk]
      refine h.cells k ?_ l hl
      rw [← hname, List.getD_eq_getElem _ _ hmem, List.getElem?_eq_getElem hmem]
    · -- what the second sheet adds has other names
      have hadded := List.mem_of_getElem? hplace
      rw [map_placesOf, List.mem_filter] at hadded
      have hshared : (left.shared right).contains name = true := by
        rw [List.contains_iff_mem, shared, List.mem_filter, List.contains_iff_mem]
        exact ⟨hadded.1, h.mem⟩
      rw [hshared] at hadded
      exact absurd hadded.2 (by simp)

theorem columns_project (h : sheet.project names = .ok projected) : projected.columns = names := by
  simp only [Sheet.project, bind, Except.bind, pure, Except.pure] at h
  split at h
  · contradiction
  · rw [← Except.ok.inj h]

theorem HasUnder.project (h : sheet.HasUnder name P) (hname : name ∈ names)
    (hproject : sheet.project names = .ok projected) : projected.HasUnder name P := by
  simp only [Sheet.project, bind, Except.bind, pure, Except.pure] at hproject
  split at hproject
  · contradiction
  rename_i places hplaces
  obtain rfl := Except.ok.inj hproject
  refine ⟨hname, fun i hi row hrow => ?_⟩
  obtain ⟨source, hsource, rfl⟩ := List.mem_map.1 hrow
  obtain ⟨hlt, hget⟩ := List.getElem?_eq_some_iff.1 hi
  obtain ⟨hlength, hall⟩ := List.forall₂_iff_get.1 (mapM_eq_ok_iff.1 hplaces)
  have hplace := hall i hlt (hlength ▸ hlt)
  rw [List.get_eq_getElem, List.get_eq_getElem, hget] at hplace
  split at hplace
  · rename_i place hcolumn
    obtain ⟨hplace', hname', -⟩ := List.findIdx?_eq_some_iff_getElem.1 hcolumn
    have hcell : Sheet.cell (places.map (Sheet.cell source)) i = Sheet.cell source place := by
      have hlt' : i < (places.map (Sheet.cell source)).length := by simpa [← hlength] using hlt
      rw [Sheet.cell, List.getD_eq_getElem _ _ hlt', List.getElem_map, ← Except.ok.inj hplace]
    rw [hcell]
    refine h.cells place ?_ source hsource
    rw [List.getElem?_eq_getElem hplace', beq_iff_eq.1 hname']
  · contradiction

end Under

end Sheet
end FormulaGraph
