/-!
Tables: finite maps from names to entries that remember the order in which their names were first
inserted. Inserting under a name that is present replaces its entry in place.
-/

namespace FormulaGraph

universe u v

/-- A map from names to entries, in order of first insertion. -/
@[ext]
structure Table (α : Type u) where
  entries : List (String × α)
  nodup : (entries.map Prod.fst).Nodup

namespace Table

variable {α : Type u} {β : Type v}

/-- The entries with `value` under `key`: in the place of the entry of that name, or at the end. -/
def put (key : String) (value : α) : List (String × α) → List (String × α)
  | [] => [(key, value)]
  | (k, w) :: rest => if k = key then (k, value) :: rest else (k, w) :: put key value rest

theorem map_fst_put (key : String) (value : α) (entries : List (String × α)) :
    (put key value entries).map Prod.fst =
      if key ∈ entries.map Prod.fst then entries.map Prod.fst
      else entries.map Prod.fst ++ [key] := by
  induction entries with
  | nil => rfl
  | cons e rest ih =>
    obtain ⟨k, w⟩ := e
    by_cases h : k = key
    · simp [put, h]
    · have h' : ¬ key = k := fun e => h e.symm
      simp only [put, h, if_false, List.map_cons, ih, List.mem_cons, h', false_or]
      split <;> rfl

theorem nodup_put {entries : List (String × α)} (key : String) (value : α)
    (h : (entries.map Prod.fst).Nodup) : ((put key value entries).map Prod.fst).Nodup := by
  rw [map_fst_put]
  split
  · exact h
  · rename_i hk
    exact List.nodup_append.2 ⟨h, by simp, fun a ha b hb => by
      rw [List.mem_singleton.1 hb]
      exact fun e => hk (e ▸ ha)⟩

def empty : Table α := ⟨[], List.nodup_nil⟩

instance : Inhabited (Table α) := ⟨empty⟩

/-- Sets the entry of a name; a new name comes last. -/
def insert (t : Table α) (key : String) (value : α) : Table α :=
  ⟨put key value t.entries, nodup_put key value t.nodup⟩

def insertAll (t : Table α) (pairs : List (String × α)) : Table α :=
  pairs.foldl (fun t p => t.insert p.1 p.2) t

/-- The table of a list of pairs; the last of several pairs of one name gives its entry. -/
def ofList (pairs : List (String × α)) : Table α := empty.insertAll pairs

def get? (t : Table α) (key : String) : Option α := t.entries.lookup key

def contains (t : Table α) (key : String) : Bool := (t.get? key).isSome

def keys (t : Table α) : List String := t.entries.map Prod.fst

def size (t : Table α) : Nat := t.entries.length

def erase (t : Table α) (key : String) : Table α :=
  ⟨t.entries.filter (·.1 != key), by
    exact t.nodup.sublist (List.filter_sublist.map _)⟩

def map (f : α → β) (t : Table α) : Table β :=
  ⟨t.entries.map fun p => (p.1, f p.2), by simpa [Function.comp_def] using t.nodup⟩

/-- The table with every name replaced by `f` of it; of two names that become one the later entry
is kept, in the place of the earlier. -/
def mapKeys (f : String → String) (t : Table α) : Table α :=
  ofList (t.entries.map fun p => (f p.1, p.2))

theorem nodup_keys (t : Table α) : t.keys.Nodup := t.nodup

theorem keys_insert (t : Table α) (key : String) (value : α) :
    (t.insert key value).keys = if key ∈ t.keys then t.keys else t.keys ++ [key] :=
  map_fst_put key value t.entries

end Table
end FormulaGraph
