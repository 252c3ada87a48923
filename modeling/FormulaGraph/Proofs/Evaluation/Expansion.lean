import FormulaGraph.Proofs.Evaluation.Listing
import FormulaGraph.Proofs.Rule.Interchange

/-! Identifiers in full form. A session gives the same answers when some names of its tables, some
references in its rules and some identifiers that it is asked for are written in full, as long as the
entry that counts for an identifier remains the last one. -/
namespace FormulaGraph

open Text

namespace Table

variable {α β : Type*} {f g : String → String} {t : Table α} {u : Table β} {key : String}

/-- The last of the names that `f` makes `key`; it is the one whose entry counts. -/
def lastName? (f : String → String) (t : Table α) (key : String) : Option String :=
  (t.keys.filter (f · = key)).getLast?

theorem eq_of_lastName? {name : String} (h : t.lastName? f key = some name) :
    name ∈ t.keys ∧ f name = key := by
  simpa using List.mem_filter.1 (List.mem_of_getLast? h)

theorem get?_mapKeys_eq_bind (f : String → String) (t : Table α) (key : String) :
    (t.mapKeys f).get? key = (t.lastName? f key).bind t.get? := by
  have hkeys : t.keys.filter (f · = key) = (t.entries.filter (f ·.1 = key)).map Prod.fst := by
    rw [keys, List.filter_map]
    rfl
  rw [get?_mapKeys, lastName?, hkeys, List.getLast?_map, Option.bind_map]
  cases hlast : (t.entries.filter (f ·.1 = key)).getLast? with
  | none => rfl
  | some e =>
    have hmem := List.mem_of_mem_filter (List.mem_of_getLast? hlast)
    exact (get?_eq_some_iff.2 hmem).symm

/-- The names are replaced by `g` so that of those which `f` makes one the last remains the last. -/
def KeepsLast (f g : String → String) (t : Table α) : Prop :=
  ∀ key, (t.mapKeys g).lastName? f key = (t.lastName? f key).map g

theorem lastName?_eq_some (hfg : ∀ name, f (g name) = f name) {name : String}
    (h : t.lastName? f key = some name) : t.lastName? g (g name) = some name := by
  obtain ⟨-, rfl⟩ := eq_of_lastName? h
  have hfilter : t.keys.filter (g · = g name) =
      (t.keys.filter (f · = f name)).filter (g · = g name) := by
    rw [List.filter_filter]
    refine List.filter_congr fun k _ => ?_
    have himp : g k = g name → f k = f name := fun hg => by rw [← hfg k, hg, hfg]
    simpa using himp
  obtain ⟨init, hinit⟩ := List.getLast?_eq_some_iff.1 h
  rw [lastName?, hfilter, hinit, List.filter_append]
  simp

/-- Where the last one remains the last, replacing names twice comes to replacing them once. -/
theorem KeepsLast.get?_mapKeys (h : t.KeepsLast f g) (hfg : ∀ name, f (g name) = f name)
    (key : String) : ((t.mapKeys g).mapKeys f).get? key = (t.mapKeys f).get? key := by
  rw [get?_mapKeys_eq_bind, h key, get?_mapKeys_eq_bind, Option.bind_map]
  cases hlast : t.lastName? f key with
  | none => rfl
  | some name =>
    change (t.mapKeys g).get? (g name) = t.get? name
    rw [get?_mapKeys_eq_bind, lastName?_eq_some hfg hlast, Option.bind_some]

theorem keepsLast_of_injOn (hfg : ∀ name, f (g name) = f name)
    (h : ∀ a ∈ t.keys, ∀ b ∈ t.keys, g a = g b → a = b) : t.KeepsLast f g := by
  intro key
  have hpairs : (t.entries.map fun p => (g p.1, p.2)).map Prod.fst = t.keys.map g := by
    rw [List.map_map, keys, List.map_map]
    rfl
  have hkeys : (t.mapKeys g).keys = t.keys.map g := by
    rw [mapKeys, keys, entries_ofList, hpairs]
    rw [hpairs]
    exact List.Nodup.map_on h t.nodup_keys
  rw [lastName?, lastName?, hkeys, List.filter_map, List.getLast?_map]
  simp only [Function.comp_def, hfg]

theorem lastName?_eq_none_iff : t.lastName? f key = none ↔ ∀ name ∈ t.keys, f name ≠ key := by
  simp [lastName?]

theorem lastName?_mapKeys_eq_none_iff (hfg : ∀ name, f (g name) = f name) :
    (t.mapKeys g).lastName? f key = none ↔ t.lastName? f key = none := by
  simp only [lastName?_eq_none_iff, mem_keys_mapKeys, forall_exists_index, and_imp,
    forall_apply_eq_imp_iff₂, hfg]

theorem keepsLast_self (hf : ∀ name, f (f name) = f name) (t : Table α) : t.KeepsLast f f := by
  intro key
  cases hlast : t.lastName? f key with
  | none => exact (lastName?_mapKeys_eq_none_iff hf).2 hlast
  | some name =>
    obtain ⟨-, rfl⟩ := eq_of_lastName? hlast
    cases hfound : (t.mapKeys f).lastName? f (f name) with
    | none =>
      rw [(lastName?_mapKeys_eq_none_iff hf).1 hfound] at hlast
      contradiction
    | some last =>
      obtain ⟨hmem, heq⟩ := eq_of_lastName? hfound
      obtain ⟨k, -, rfl⟩ := mem_keys_mapKeys.1 hmem
      rw [Option.map_some, ← heq, hf]

theorem keys_mapKeys_congr {u : Table α} (h : u.keys = t.keys) (f : String → String) :
    (u.mapKeys f).keys = (t.mapKeys f).keys := by
  refine keys_insertAll_congr ?_ rfl
  simpa [keys, Function.comp_def] using congrArg (List.map f) h

/-- Nothing less will do: whatever entries tables with these names have, replacing the names twice
comes to replacing them once just if the last one remains the last. -/
theorem keepsLast_iff (hfg : ∀ name, f (g name) = f name) {v w : α} (hvw : v ≠ w) :
    t.KeepsLast f g ↔ ∀ u : Table α, u.keys = t.keys →
      ∀ key, ((u.mapKeys g).mapKeys f).get? key = (u.mapKeys f).get? key := by
  have hnames : ∀ u : Table α, u.keys = t.keys →
      u.lastName? f = t.lastName? f ∧ (u.mapKeys g).lastName? f = (t.mapKeys g).lastName? f := by
    intro u hkeys
    unfold lastName?
    rw [hkeys, keys_mapKeys_congr hkeys]
    exact ⟨rfl, rfl⟩
  constructor
  · intro h u hkeys
    obtain ⟨hlast, hlast'⟩ := hnames u hkeys
    have hu : u.KeepsLast f g := fun key => by rw [hlast, hlast', h key]
    exact hu.get?_mapKeys hfg
  · intro h key
    cases hlast : t.lastName? f key with
    | none => exact (lastName?_mapKeys_eq_none_iff hfg).2 hlast
    | some name =>
      -- the table in which only the entry that counts is `v`
      let u : Table α := ⟨t.entries.map fun e => (e.1, if e.1 = name then v else w), by
        simpa [Function.comp_def] using t.nodup⟩
      have hkeys : u.keys = t.keys := by simp [u, keys, Function.comp_def]
      have hentry : ∀ k x, u.get? k = some x → x = if k = name then v else w := by
        intro k x hx
        obtain ⟨e, -, heq⟩ := List.mem_map.1 (get?_eq_some_iff.1 hx)
        obtain ⟨rfl, rfl⟩ := Prod.mk.inj heq
        rfl
      have hcounts : (u.mapKeys f).get? key = some v := by
        rw [get?_mapKeys_eq_bind, (hnames u hkeys).1, hlast, Option.bind_some]
        obtain ⟨x, hx⟩ := mem_keys_iff.1 (hkeys ▸ (eq_of_lastName? hlast).1)
        rw [hx, hentry name x hx, if_pos rfl]
      have hsame := h u hkeys key
      rw [hcounts, get?_mapKeys_eq_bind, (hnames u hkeys).2] at hsame
      obtain ⟨k, hk, hv⟩ := Option.bind_eq_some_iff.1 hsame
      rw [get?_mapKeys_eq_bind] at hv
      obtain ⟨k', hk', hv⟩ := Option.bind_eq_some_iff.1 hv
      obtain rfl : k' = name := by
        by_contra hne
        exact hvw ((hentry k' v hv).trans (if_neg hne))
      rw [hk, Option.map_some, (eq_of_lastName? hk').2]

/-- Tables with the same names in the same order and with related entries. -/
def Rel (R : α → β → Prop) (t : Table α) (u : Table β) : Prop :=
  List.Forall₂ (fun e e' => e.1 = e'.1 ∧ R e.2 e'.2) t.entries u.entries

variable {R : α → β → Prop}

theorem Rel.get? (h : Rel R t u) (key : String) : Option.Rel R (t.get? key) (u.get? key) := by
  have hentries : List.Forall₂ (fun e e' => e.1 = e'.1 ∧ R e.2 e'.2) t.entries u.entries := h
  unfold Table.get?
  generalize t.entries = entries, u.entries = entries' at hentries
  induction hentries with
  | nil => exact .none
  | @cons e e' _ _ he _ ih =>
    obtain ⟨k, v⟩ := e
    obtain ⟨k', w⟩ := e'
    obtain ⟨rfl, hvw⟩ : k = k' ∧ R v w := he
    cases hk : key == k with
    | true => simpa [List.lookup_cons, hk] using Option.Rel.some hvw
    | false => simpa [List.lookup_cons, hk] using ih

theorem Rel.keys_eq (h : Rel R t u) : t.keys = u.keys := by
  have hmap := h.imp (S := fun e e' => e.1 = e'.1) fun _ _ he => he.1
  exact List.forall₂_eq_eq_eq ▸ (List.forall₂_map_left_iff.2 (List.forall₂_map_right_iff.2 hmap))

theorem Rel.get?_mapKeys (h : Rel R t u) (f : String → String) (key : String) :
    Option.Rel R ((t.mapKeys f).get? key) ((u.mapKeys f).get? key) := by
  rw [get?_mapKeys_eq_bind, get?_mapKeys_eq_bind, lastName?, lastName?, h.keys_eq]
  cases (u.keys.filter (f · = key)).getLast? with
  | none => exact .none
  | some name => exact h.get? name

theorem size_eq_of_rel (h : ∀ key, Option.Rel R (t.get? key) (u.get? key)) : t.size = u.size := by
  have hmem : ∀ key, key ∈ t.keys ↔ key ∈ u.keys := by
    intro key
    rw [← not_iff_not, ← get?_eq_none_iff, ← get?_eq_none_iff]
    have hkey := h key
    generalize t.get? key = v, u.get? key = w at hkey
    cases hkey <;> simp
  have hperm := (List.perm_ext_iff_of_nodup t.nodup_keys u.nodup_keys).2 hmem
  simpa [keys, size] using hperm.length_eq

end Table

/-- The chosen names in full form, the others as they are. -/
def Namespaces.extendIf (ns : Namespaces) (chosen : String → Bool) (name : String) : String :=
  if chosen name then ns.extend name else name

theorem Namespaces.extend_extendIf {ns : Namespaces}
    (hidem : ∀ x, ns.extend (ns.extend x) = ns.extend x) (chosen : String → Bool) (name : String) :
    ns.extend (ns.extendIf chosen name) = ns.extend name := by
  unfold extendIf
  split
  · exact hidem name
  · rfl

/-- Errors of one class; identifiers that they name are the same. -/
inductive EvaluationError.SameClass : EvaluationError → EvaluationError → Prop where
  | same (e : EvaluationError) : SameClass e e
  | rule (fault fault' : RuleFault) (context context' : Context) :
    SameClass (.invalidRule fault context) (.invalidRule fault' context')
  | order (key : String) (orders orders' : Table Order) :
    SameClass (.undefinedOrder key orders) (.undefinedOrder key orders')

namespace Session

/-- Calls that differ in that some identifiers and references are in full form. -/
inductive Call.Expands (ns : Namespaces) : Call → Call → Prop where
  | kept (identifier : String) : Expands ns (.resolve identifier) (.resolve identifier)
  | extended (identifier : String) :
    Expands ns (.resolve identifier) (.resolve (ns.extend identifier))
  | execute {rules rules' : Order} (h : List.Forall₂ (Rule.Expands ns) rules rules')
    (owner : Option String) : Expands ns (.execute rules owner) (.execute rules' owner)

/-- Sessions that differ in that some references in their rules are in full form. -/
structure Expands (ns : Namespaces) (s t : Session) : Prop where
  left : s.namespaces = ns
  right : t.namespaces = ns
  values : s.values.Relists t.values
  orders : ∀ key,
    Option.Rel (List.Forall₂ (Rule.Expands ns)) (s.orders.get? key) (t.orders.get? key)
  inProgress : s.inProgress = t.inProgress

end Session

section

variable {ns : Namespaces} (hidem : ∀ x, ns.extend (ns.extend x) = ns.extend x)
  (htight : ns.IsTight)

/-- Sessions with references in full form, side by side with those as they were. -/
def Evaluation.expansion : Evaluation.Pairing ns where
  sessions := Session.Expands ns
  rules := Rule.Expands ns
  errors := EvaluationError.SameClass
  same := .same
  left h := h.left
  right h := h.right
  inProgress h := h.inProgress
  depth h := congrArg (· + 1) (Table.size_eq_of_rel h.orders)
  values h := h.values
  orders h := h.orders
  push h key := ⟨h.left, h.right, h.values, h.orders, congrArg (· ++ [key]) h.inProgress⟩
  pop h := ⟨h.left, h.right, h.values, h.orders, congrArg List.dropLast h.inProgress⟩
  count h := ⟨h.left, h.right, h.values, h.orders, h.inProgress⟩
  store h key v := ⟨h.left, h.right, h.values.insert key v, h.orders, h.inProgress⟩
  none := .same _
  reads h := h.readsAlike hidem htight
  malformed _ _ _ _ _ _ _ := .rule _ _ _ _
  fault _ _ _ _ _ _ := .rule _ _ _ _
  undefined _ key := .order key _ _

include hidem in
theorem Session.expands_new {orders orders' : Table Order} {values : Table Value}
    {inOrders inValues : String → Bool}
    (horders : orders.KeepsLast ns.extend (ns.extendIf inOrders))
    (hvalues : values.KeepsLast ns.extend (ns.extendIf inValues))
    (hrules : Table.Rel (List.Forall₂ (Rule.Expands ns))
      (orders.mapKeys (ns.extendIf inOrders)) orders') :
    (Session.new ns orders values).Expands ns
      (Session.new ns orders' (values.mapKeys (ns.extendIf inValues))) where
  left := rfl
  right := rfl
  values key := (hvalues.get?_mapKeys (Namespaces.extend_extendIf hidem inValues) key).symm
  orders key := by
    have hkey := hrules.get?_mapKeys ns.extend key
    rwa [horders.get?_mapKeys (Namespaces.extend_extendIf hidem inOrders)] at hkey
  inProgress := rfl

theorem Session.Call.Expands.calls {call call' : Session.Call} (h : call.Expands ns call') :
    (Evaluation.expansion hidem htight).Calls call call' := by
  cases h with
  | kept identifier => exact .resolve (ns.sameFull_refl identifier)
  | extended identifier => exact .resolve (hidem identifier).symm
  | execute h owner => exact .execute h owner

end

/-- Some names of orders and of values, some references in brackets and some identifiers asked for can
be in full form: all answers remain the same values, or errors of the same classes. The name whose
entry counts, the last of its full form, is to remain the last when names that become one are
merged. -/
theorem full_forms_interchangeable (ns : Namespaces)
    (hidem : ∀ x, ns.extend (ns.extend x) = ns.extend x) (htight : ns.IsTight)
    (orders orders' : Table Order) (values : Table Value) (inOrders inValues : String → Bool)
    (horders : orders.KeepsLast ns.extend (ns.extendIf inOrders))
    (hvalues : values.KeepsLast ns.extend (ns.extendIf inValues))
    (hrules : Table.Rel (List.Forall₂ (Rule.Expands ns))
      (orders.mapKeys (ns.extendIf inOrders)) orders')
    (calls calls' : List Session.Call)
    (hcalls : List.Forall₂ (Session.Call.Expands ns) calls calls') :
    List.Forall₂ (Evaluation.SameOutcome EvaluationError.SameClass)
      ((Session.new ns orders values).answers calls)
      ((Session.new ns orders' (values.mapKeys (ns.extendIf inValues))).answers calls') :=
  Evaluation.Pairing.sameOutcome_answers (P := Evaluation.expansion hidem htight)
    (Session.expands_new hidem horders hvalues hrules)
    (hcalls.imp fun _ _ h => h.calls hidem htight)

/-- A product whose first factor is written with a prefix, in the rule and among the values, and
everywhere in full. -/
theorem full_forms_interchangeable_product :
    let ns := Namespaces.standard.add "stat" "http://example.org/stat#"
    let orders : Table Order := Table.ofList [("stat:t", [.text "[stat:a]*[stat:b]"])]
    let values : Table Value := Table.ofList [("stat:a", .int 2), ("stat:b", .int 3)]
    let orders' : Table Order := Table.ofList
      [("http://example.org/stat#t", [.text "[http://example.org/stat#a]*[stat:b]"])]
    List.Forall₂ (Evaluation.SameOutcome EvaluationError.SameClass)
      ((Session.new ns orders values).answers [.resolve "stat:t", .resolve "stat:c"])
      ((Session.new ns orders' (values.mapKeys (ns.extendIf (· == "stat:a")))).answers
        [.resolve "http://example.org/stat#t", .resolve "stat:c"]) := by
  intro ns orders values orders'
  have hidem : ∀ x, ns.extend (ns.extend x) = ns.extend x :=
    Namespaces.extend_extend (by decide +kernel)
  have htight : ns.IsTight := by decide +kernel
  have hvalues : values.KeepsLast ns.extend (ns.extendIf (· == "stat:a")) :=
    Table.keepsLast_of_injOn (Namespaces.extend_extendIf hidem _) (by decide +kernel)
  have hfull : ns.extend "stat:a" = "http://example.org/stat#a" := by decide +kernel
  have href : IsParsedRef "stat:a" := (isCleanRef_iff.1 (by decide +kernel)).2
  have htext := @Rule.ExpandsText.reference ns [] [] _ _ "stat:a" nofun nofun href
    (.refl "*[stat:b]".toList)
  rw [hfull] at htext
  have hrule : Rule.Expands ns (.text "[stat:a]*[stat:b]")
      (.text "[http://example.org/stat#a]*[stat:b]") := .text htext
  have hname : ns.extend "stat:t" = "http://example.org/stat#t" := by decide +kernel
  have hrules : Table.Rel (List.Forall₂ (Rule.Expands ns)) (orders.mapKeys ns.extend) orders' :=
    .cons ⟨hname, .cons hrule .nil⟩ .nil
  have hcalls : List.Forall₂ (Session.Call.Expands ns) [.resolve "stat:t", .resolve "stat:c"]
      [.resolve "http://example.org/stat#t", .resolve "stat:c"] :=
    .cons (hname ▸ .extended "stat:t") (.cons (.kept "stat:c") .nil)
  exact full_forms_interchangeable ns hidem htight orders orders' values (fun _ => true) _
    (Table.keepsLast_self hidem orders) hvalues hrules _ _ hcalls

/-- Of three names of one identifier, the first is put in full and so merged with the last: then the
one between them is the last. -/
theorem full_forms_merged :
    let ns := (Namespaces.standard.add "p" "http://u/").add "q" "http://u/"
    let values : Table Value :=
      Table.ofList [("p:a", .int 1), ("q:a", .int 2), ("http://u/a", .int 3)]
    let merged : Table Value := values.mapKeys (ns.extendIf (· == "p:a"))
    (∀ x, ns.extend (ns.extend x) = ns.extend x) ∧ ns.IsTight ∧
      merged.entries = [("http://u/a", .int 3), ("q:a", .int 2)] ∧
      ((Session.new ns Table.empty values).resolve "p:a").1 = .ok (.int 3) ∧
      ((Session.new ns Table.empty merged).resolve "p:a").1 = .ok (.int 2) := by
  intro ns values merged
  have hmerged : merged = Table.ofList [("http://u/a", .int 3), ("q:a", .int 2)] :=
    Table.ext (by rfl)
  refine ⟨Namespaces.extend_extend (by decide +kernel), by decide +kernel, by rfl, by rfl, ?_⟩
  rw [hmerged]
  rfl

end FormulaGraph
