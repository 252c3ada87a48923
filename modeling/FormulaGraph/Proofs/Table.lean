import Mathlib.Data.List.Perm.Subperm
import FormulaGraph.Table

/-! What a table holds after insertions, and the table of a list of pairs. -/
namespace FormulaGraph.Table

variable {α : Type*} {β : Type*}

theorem get?_eq_some_iff {t : Table α} {key : String} {v : α} :
    t.get? key = some v ↔ (key, v) ∈ t.entries := by
  obtain ⟨entries, nodup⟩ := t
  unfold get?
  dsimp only
  induction entries with
  | nil => simp
  | cons e rest ih =>
    obtain ⟨k, w⟩ := e
    rw [List.map_cons, List.nodup_cons] at nodup
    by_cases h : key = k
    · subst h
      have hrest : ∀ u, (key, u) ∉ rest := fun u hu =>
        nodup.1 (List.mem_map.2 ⟨(key, u), hu, rfl⟩)
      simp [hrest, eq_comm]
    · have hb : (key == k) = false := by simpa using h
      simp [List.lookup_cons, hb, h, ih nodup.2]

theorem mem_keys_iff {t : Table α} {key : String} : key ∈ t.keys ↔ ∃ v, t.get? key = some v := by
  simp [keys, get?_eq_some_iff]

theorem contains_iff {t : Table α} {key : String} : t.contains key = true ↔ key ∈ t.keys := by
  rw [contains, Option.isSome_iff_exists, mem_keys_iff]

theorem get?_eq_none_iff {t : Table α} {key : String} : t.get? key = none ↔ key ∉ t.keys := by
  rw [mem_keys_iff, ← Option.isSome_iff_exists, Option.not_isSome_iff_eq_none]

@[simp] theorem get?_empty (key : String) : (empty : Table α).get? key = none := rfl

@[simp] theorem keys_empty : (empty : Table α).keys = [] := rfl

theorem lookup_put (key : String) (v : α) (entries : List (String × α)) (other : String) :
    (put key v entries).lookup other = if other = key then some v else entries.lookup other := by
  induction entries with
  | nil =>
    by_cases h : other = key
    · simp [put, h]
    · have hb : (other == key) = false := by simpa using h
      simp [put, List.lookup_cons, hb, h]
  | cons e rest ih =>
    obtain ⟨k, w⟩ := e
    by_cases hk : k = key
    · subst hk
      by_cases h : other = k
      · simp [put, h]
      · have hb : (other == k) = false := by simpa using h
        simp [put, List.lookup_cons, hb, h]
    · by_cases h : other = k
      · subst h
        simp [put, hk]
      · have hb : (other == k) = false := by simpa using h
        simp [put, List.lookup_cons, hk, hb, ih]

theorem get?_insert (t : Table α) (key : String) (v : α) (other : String) :
    (t.insert key v).get? other = if other = key then some v else t.get? other :=
  lookup_put key v t.entries other

@[simp] theorem get?_insert_self (t : Table α) (key : String) (v : α) :
    (t.insert key v).get? key = some v := by
  simp [get?_insert]

theorem mem_keys_insert {t : Table α} {key : String} {v : α} {other : String} :
    other ∈ (t.insert key v).keys ↔ other = key ∨ other ∈ t.keys := by
  rw [keys_insert]
  split <;> rename_i h
  · constructor
    · exact Or.inr
    · rintro (rfl | ho)
      · exact h
      · exact ho
  · simp [or_comm]

theorem keys_insert_of_notMem {t : Table α} {key : String} (v : α) (h : key ∉ t.keys) :
    (t.insert key v).keys = t.keys ++ [key] := by
  rw [keys_insert, if_neg h]

theorem put_of_notMem {key : String} {v : α} {entries : List (String × α)}
    (h : key ∉ entries.map Prod.fst) : put key v entries = entries ++ [(key, v)] := by
  induction entries with
  | nil => rfl
  | cons e rest ih =>
    obtain ⟨k, w⟩ := e
    simp only [List.map_cons, List.mem_cons, not_or] at h
    rw [put, if_neg (Ne.symm h.1), ih h.2, List.cons_append]

/-- What is in a table stays when an entry is added under a new name. -/
theorem get?_insert_of_new {t : Table α} {key other : String} {v x : α} (hk : t.get? key = none)
    (hx : t.get? other = some x) : (t.insert key v).get? other = some x := by
  rw [get?_insert, if_neg, hx]
  rintro rfl
  simp [hk] at hx

theorem entries_insert_of_new {t : Table α} {key : String} (v : α) (h : t.get? key = none) :
    (t.insert key v).entries = t.entries ++ [(key, v)] :=
  put_of_notMem (get?_eq_none_iff.1 h)

theorem size_insert_of_new {t : Table α} {key : String} {v : α} (h : t.get? key = none) :
    (t.insert key v).size = t.size + 1 := by
  simpa [size] using congrArg List.length (entries_insert_of_new v h)

theorem put_eq_self {key : String} {v : α} {entries : List (String × α)}
    (h : entries.lookup key = some v) : put key v entries = entries := by
  induction entries with
  | nil => simp at h
  | cons e rest ih =>
    obtain ⟨k, w⟩ := e
    by_cases hk : k = key
    · subst hk
      obtain rfl : w = v := by simpa using h
      simp [put]
    · have hb : (key == k) = false := by simpa using Ne.symm hk
      rw [put, if_neg hk, ih (by simpa [List.lookup_cons, hb] using h)]

theorem insert_eq_self {t : Table α} {key : String} {v : α} (h : t.get? key = some v) :
    t.insert key v = t := Table.ext (put_eq_self h)

/-- Every entry of the first table is one of the second. -/
instance : HasSubset (Table α) where
  Subset t u := ∀ ⦃key v⦄, t.get? key = some v → u.get? key = some v

theorem mem_keys_of_subset {t u : Table α} (h : t ⊆ u) {key : String} (hkey : key ∈ t.keys) :
    key ∈ u.keys := by
  obtain ⟨v, hv⟩ := mem_keys_iff.1 hkey
  exact mem_keys_iff.2 ⟨v, h hv⟩

theorem get?_eq_none_of_subset {t u : Table α} (h : t ⊆ u) {key : String}
    (hu : u.get? key = none) : t.get? key = none :=
  get?_eq_none_iff.2 fun hkey => get?_eq_none_iff.1 hu (mem_keys_of_subset h hkey)

theorem subset_insert_of_new {t u : Table α} {key : String} {v : α} (h : t ⊆ u)
    (hnew : t.get? key = none) : t ⊆ u.insert key v := by
  intro other x hx
  rw [get?_insert, if_neg, h hx]
  rintro rfl
  simp [hnew] at hx

theorem insert_subset {t u : Table α} {key : String} {v : α} (h : t ⊆ u)
    (hv : u.get? key = some v) : t.insert key v ⊆ u := by
  intro other x hx
  rw [get?_insert] at hx
  split at hx
  · rename_i heq
    rw [heq, ← hx, hv]
  · exact h hx

def lastOf (pairs : List (String × α)) (key : String) : Option α :=
  ((pairs.filter (·.1 = key)).getLast?).map Prod.snd

theorem mem_of_lastOf {pairs : List (String × α)} {key : String} {v : α}
    (h : lastOf pairs key = some v) : (key, v) ∈ pairs := by
  obtain ⟨p, hp, rfl⟩ := Option.map_eq_some_iff.1 h
  obtain ⟨hmem, hkey⟩ := List.mem_filter.1 (List.mem_of_getLast? hp)
  obtain rfl : p.1 = key := by simpa using hkey
  exact hmem

theorem lastOf_append (xs ys : List (String × α)) (key : String) :
    lastOf (xs ++ ys) key = (lastOf ys key).or (lastOf xs key) := by
  unfold lastOf
  rw [List.filter_append, List.getLast?_append]
  cases (ys.filter (·.1 = key)).getLast? <;> rfl

theorem lastOf_eq_none_iff {pairs : List (String × α)} {key : String} :
    lastOf pairs key = none ↔ key ∉ pairs.map Prod.fst := by
  simp only [lastOf, Option.map_eq_none_iff, List.getLast?_eq_none_iff, List.filter_eq_nil_iff,
    decide_eq_true_eq, List.mem_map, not_exists, not_and]

theorem lastOf_cons (p : String × α) (rest : List (String × α)) (key : String) :
    lastOf (p :: rest) key = (lastOf rest key).or (if p.1 = key then some p.2 else none) := by
  rw [← List.singleton_append, lastOf_append]
  by_cases h : p.1 = key <;> simp [lastOf, h]

theorem get?_insertAll (t : Table α) (pairs : List (String × α)) (key : String) :
    (t.insertAll pairs).get? key = (lastOf pairs key).or (t.get? key) := by
  induction pairs generalizing t with
  | nil => rfl
  | cons p rest ih =>
    have hfold : t.insertAll (p :: rest) = (t.insert p.1 p.2).insertAll rest := rfl
    rw [hfold, ih, lastOf_cons, get?_insert, Option.or_assoc]
    by_cases h : p.1 = key
    · simp [h]
    · simp [h, Ne.symm h]

theorem get?_ofList (pairs : List (String × α)) (key : String) :
    (ofList pairs).get? key = lastOf pairs key := by
  rw [ofList, get?_insertAll, get?_empty, Option.or_none]

theorem mem_keys_ofList {pairs : List (String × α)} {key : String} :
    key ∈ (ofList pairs).keys ↔ key ∈ pairs.map Prod.fst := by
  rw [mem_keys_iff, ← Option.isSome_iff_exists, get?_ofList, ← not_iff_not,
    Option.not_isSome_iff_eq_none, lastOf_eq_none_iff]

theorem entries_insertAll {t : Table α} {pairs : List (String × α)}
    (hn : (t.keys ++ pairs.map Prod.fst).Nodup) :
    (t.insertAll pairs).entries = t.entries ++ pairs := by
  induction pairs generalizing t with
  | nil => simp [insertAll]
  | cons p rest ih =>
    have hp : p.1 ∉ t.keys := by
      intro hmem
      exact (List.nodup_append.1 hn).2.2 p.1 hmem p.1 (by simp) rfl
    have hkeys : (t.insert p.1 p.2).keys = t.keys ++ [p.1] := keys_insert_of_notMem p.2 hp
    have hent : (t.insert p.1 p.2).entries = t.entries ++ [p] :=
      entries_insert_of_new p.2 (get?_eq_none_iff.2 hp)
    have hfold : t.insertAll (p :: rest) = (t.insert p.1 p.2).insertAll rest := rfl
    rw [hfold, ih (by simpa [hkeys] using hn), hent, List.append_assoc, List.singleton_append]

theorem entries_ofList {pairs : List (String × α)} (hn : (pairs.map Prod.fst).Nodup) :
    (ofList pairs).entries = pairs := entries_insertAll (t := empty) (by simpa using hn)

theorem ofList_entries (t : Table α) : ofList t.entries = t :=
  Table.ext (entries_ofList t.nodup)

theorem mem_keys_mapKeys {f : String → String} {t : Table α} {key : String} :
    key ∈ (t.mapKeys f).keys ↔ ∃ k ∈ t.keys, f k = key := by
  rw [mapKeys, mem_keys_ofList]
  simp [keys]

theorem size_mapKeys_le (f : String → String) (t : Table α) : (t.mapKeys f).size ≤ t.size := by
  have hsub : (t.mapKeys f).keys ⊆ t.keys.map f := fun key hkey =>
    List.mem_map.2 (mem_keys_mapKeys.1 hkey)
  have hle := ((t.mapKeys f).nodup.subperm hsub).length_le
  simpa [keys, size] using hle

theorem mapKeys_eq_self {f : String → String} {t : Table α} (h : ∀ k ∈ t.keys, f k = k) :
    t.mapKeys f = t := by
  have hmap : t.entries.map (fun p => (f p.1, p.2)) = t.entries := by
    conv_rhs => rw [← List.map_id t.entries]
    refine List.map_congr_left fun p hp => ?_
    rw [h p.1 (List.mem_map_of_mem hp)]
    rfl
  rw [mapKeys, hmap, ofList_entries]

/-- Inserting an entry before the names are replaced is the same as inserting it afterwards, if no
other entry comes to have its name. -/
theorem mapKeys_insert_of_new {f : String → String} {t : Table α} {key : String} {v : α}
    (hf : f key = key) (hnew : (t.mapKeys f).get? key = none) :
    (t.insert key v).mapKeys f = (t.mapKeys f).insert key v := by
  have hkey : t.get? key = none := get?_eq_none_iff.2 fun hmem =>
    get?_eq_none_iff.1 hnew (mem_keys_mapKeys.2 ⟨key, hmem, hf⟩)
  unfold mapKeys ofList insertAll
  rw [entries_insert_of_new v hkey, List.map_append, List.foldl_append]
  simp only [List.map_cons, List.map_nil, List.foldl_cons, List.foldl_nil, hf]

theorem keys_insertAll_congr {pairs pairs' : List (String × α)}
    (h : pairs.map Prod.fst = pairs'.map Prod.fst) {t t' : Table α} (ht : t.keys = t'.keys) :
    (t.insertAll pairs).keys = (t'.insertAll pairs').keys := by
  induction pairs generalizing pairs' t t' with
  | nil =>
    obtain rfl : pairs' = [] := by simpa using h.symm
    exact ht
  | cons p rest ih =>
    obtain _ | ⟨p', rest'⟩ := pairs'
    · simp at h
    obtain ⟨hkey, hrest⟩ := List.cons.inj h
    refine ih hrest ?_
    rw [keys_insert, keys_insert, ht, hkey]

/-- Two tables with the same names in the same order and the same entries are equal. -/
theorem ext_get? {t u : Table α} (hkeys : t.keys = u.keys) (h : ∀ key, t.get? key = u.get? key) :
    t = u := by
  have hlength : t.entries.length = u.entries.length := by
    simpa [keys] using congrArg List.length hkeys
  refine Table.ext (List.ext_getElem hlength fun i hi hi' => ?_)
  have hname : t.entries[i].1 = u.entries[i].1 := by
    simpa [keys, hi, hi'] using congrArg (·[i]?) hkeys
  have ht : t.get? t.entries[i].1 = some t.entries[i].2 :=
    get?_eq_some_iff.2 (List.getElem_mem hi)
  have hu : u.get? u.entries[i].1 = some u.entries[i].2 :=
    get?_eq_some_iff.2 (List.getElem_mem hi')
  rw [h, hname, hu] at ht
  exact Prod.ext hname (Option.some.inj ht).symm

/-- Setting an entry before the names are replaced does not show if it is the one kept. -/
theorem lastOf_map_put {f : String → String} {key : String} {v : α} (hf : f key = key)
    {entries : List (String × α)} (hmem : key ∈ entries.map Prod.fst)
    (hv : ∀ w, lastOf (entries.map fun p => (f p.1, p.2)) key = some w → w = v) (other : String) :
    lastOf ((put key v entries).map fun p => (f p.1, p.2)) other =
      if other = key then some v else lastOf (entries.map fun p => (f p.1, p.2)) other := by
  induction entries with
  | nil => simp at hmem
  | cons e rest ih =>
    obtain ⟨k, w⟩ := e
    have hrest : ∀ z, lastOf (rest.map fun p => (f p.1, p.2)) key = some z → z = v := by
      intro z hz
      apply hv
      rw [List.map_cons, lastOf_cons, hz]
      rfl
    by_cases hk : k = key
    · subst hk
      rw [put, if_pos rfl, List.map_cons, List.map_cons, lastOf_cons, lastOf_cons, hf]
      by_cases ho : other = k
      · subst ho
        cases hlast : lastOf (rest.map fun p => (f p.1, p.2)) other with
        | none => simp
        | some z => simp [hrest z hlast]
      · simp [ho, Ne.symm ho]
    · have hmem' : key ∈ rest.map Prod.fst := by simpa [Ne.symm hk] using hmem
      rw [put, if_neg hk, List.map_cons, List.map_cons, lastOf_cons, lastOf_cons, ih hmem' hrest]
      split <;> rfl

/-- Inserting the entry that is kept for a name changes nothing once the names are replaced. -/
theorem mapKeys_insert_of_get? {f : String → String} {t : Table α} {key : String} {v : α}
    (hf : f key = key) (h : (t.mapKeys f).get? key = some v) :
    (t.insert key v).mapKeys f = t.mapKeys f := by
  by_cases hmem : key ∈ t.keys
  · have hlast : lastOf (t.entries.map fun p => (f p.1, p.2)) key = some v := by
      rwa [mapKeys, get?_ofList] at h
    refine ext_get? (keys_insertAll_congr ?_ rfl) fun other => ?_
    · have hnames : (t.insert key v).keys = t.keys := by rw [keys_insert, if_pos hmem]
      simpa [keys, Function.comp_def] using congrArg (List.map f) hnames
    · have hput := lastOf_map_put hf hmem (fun w hw => Option.some.inj (hw.symm.trans hlast)) other
      rw [mapKeys, mapKeys, get?_ofList, get?_ofList]
      refine hput.trans ?_
      split
      · rename_i heq
        rw [heq, hlast]
      · rfl
  · unfold mapKeys ofList insertAll at *
    rw [entries_insert_of_new v (get?_eq_none_iff.2 hmem), List.map_append, List.foldl_append]
    simp only [List.map_cons, List.map_nil, List.foldl_cons, List.foldl_nil, hf]
    exact insert_eq_self h

/-- The last entry whose name becomes `key` is kept. -/
theorem get?_mapKeys (f : String → String) (t : Table α) (key : String) :
    (t.mapKeys f).get? key = ((t.entries.filter (f ·.1 = key)).getLast?).map Prod.snd := by
  rw [mapKeys, get?_ofList, lastOf, List.filter_map, List.getLast?_map, Option.map_map]
  rfl

theorem exists_of_get?_mapKeys {f : String → String} {t : Table α} {key : String} {v : α}
    (h : (t.mapKeys f).get? key = some v) : ∃ name, t.get? name = some v := by
  rw [get?_mapKeys] at h
  obtain ⟨p, hp, rfl⟩ := Option.map_eq_some_iff.1 h
  exact ⟨p.1, get?_eq_some_iff.2 (List.mem_of_mem_filter (List.mem_of_getLast? hp))⟩

@[simp] theorem get?_map (f : α → β) (t : Table α) (key : String) :
    (t.map f).get? key = (t.get? key).map f := by
  obtain ⟨entries, nodup⟩ := t
  unfold map get?
  dsimp only
  clear nodup
  induction entries with
  | nil => rfl
  | cons e rest ih =>
    obtain ⟨k, w⟩ := e
    cases h : key == k <;> simp [List.lookup_cons, h, ih]

@[simp] theorem keys_map (f : α → β) (t : Table α) : (t.map f).keys = t.keys := by
  simp [map, keys]

theorem put_map (f : α → β) (key : String) (v : α) (entries : List (String × α)) :
    put key (f v) (entries.map fun p => (p.1, f p.2)) =
      (put key v entries).map fun p => (p.1, f p.2) := by
  induction entries with
  | nil => rfl
  | cons e rest ih =>
    by_cases h : e.1 = key
    · simp [put, h]
    · simp [put, h, ih]

theorem insert_map (f : α → β) (t : Table α) (key : String) (v : α) :
    (t.map f).insert key (f v) = (t.insert key v).map f :=
  Table.ext (put_map f key v t.entries)

theorem insertAll_map (f : α → β) (t : Table α) (pairs : List (String × α)) :
    (t.map f).insertAll (pairs.map fun p => (p.1, f p.2)) = (t.insertAll pairs).map f := by
  induction pairs generalizing t with
  | nil => rfl
  | cons p rest ih =>
    have hstep := ih (t.insert p.1 p.2)
    rw [← insert_map] at hstep
    exact hstep

theorem mapKeys_map (f : α → β) (g : String → String) (t : Table α) :
    (t.map f).mapKeys g = (t.mapKeys g).map f := by
  have h := insertAll_map f empty (t.entries.map fun p => (g p.1, p.2))
  rw [List.map_map] at h
  unfold mapKeys ofList
  rw [← h]
  unfold map
  rw [List.map_map]
  rfl

end FormulaGraph.Table
