import FormulaGraph.Dependency.Graph
import FormulaGraph.Proofs.Table

/-! The edges of a dependency graph are the dependencies that the orders state, each once. -/
namespace FormulaGraph

/-- The identifier `source` has an order with a rule that evaluates `target`. -/
def Table.Depends (orders : Table Order) (extend : String → String) (source target : String) :
    Prop :=
  ∃ rules, orders.get? source = some rules ∧
    ∃ rule ∈ rules, target ∈ (DependencyGraph.ruleDependencies rule).map extend

namespace DependencyGraph

def ends (e : Dependency) : String × String := (e.source, e.target)

def links (g : DependencyGraph) : List (String × String) := g.edges.map ends

/-- Edges connect nodes, and no two have the same ends. -/
structure Wellformed (g : DependencyGraph) : Prop where
  mem_names : ∀ p ∈ g.links, p.1 ∈ g.names ∧ p.2 ∈ g.names
  nodup : g.links.Nodup

theorem ends_putEdge (e : Dependency) (edges : List Dependency) :
    (putEdge e edges).map ends =
      if ends e ∈ edges.map ends then edges.map ends else edges.map ends ++ [ends e] := by
  induction edges with
  | nil => rfl
  | cons f rest ih =>
    by_cases h : f.source = e.source ∧ f.target = e.target
    · have hends : ends f = ends e := by rw [ends, ends, h.1, h.2]
      rw [putEdge, if_pos h]
      simp [hends]
    · have hends : ¬ ends e = ends f := fun heq => h ⟨congrArg Prod.fst heq.symm,
        congrArg Prod.snd heq.symm⟩
      rw [putEdge, if_neg h, List.map_cons, ih]
      simp only [List.map_cons, List.mem_cons, hends, false_or]
      split <;> rfl

variable {g : DependencyGraph} {isDerived : String → Bool} {source : String} {rule : Value}
  {extend : String → String}

theorem links_addEdge (target : String) : (addEdge isDerived source rule g target).links =
    if (source, target) ∈ g.links then g.links else g.links ++ [(source, target)] :=
  ends_putEdge ⟨source, target, rule⟩ g.edges

theorem mem_links_addEdge {target : String} {p : String × String} :
    p ∈ (addEdge isDerived source rule g target).links ↔
      p ∈ g.links ∨ p = (source, target) := by
  rw [links_addEdge]
  split
  · rename_i h
    exact ⟨Or.inl, fun hp => hp.elim id fun heq => heq ▸ h⟩
  · simp

theorem mem_names_addEdge {target name : String} :
    name ∈ (addEdge isDerived source rule g target).names ↔ name ∈ g.names ∨ name = target := by
  unfold addEdge names
  dsimp only
  split
  · rename_i h
    have hmem := Table.contains_iff.1 h
    exact ⟨Or.inl, fun hn => hn.elim id fun heq => heq ▸ hmem⟩
  · rw [Table.mem_keys_insert, or_comm]

theorem Wellformed.addEdge (h : g.Wellformed) (hs : source ∈ g.names) (target : String) :
    (addEdge isDerived source rule g target).Wellformed where
  mem_names p hp := by
    rw [mem_names_addEdge, mem_names_addEdge]
    rcases mem_links_addEdge.1 hp with hp | rfl
    · exact ⟨Or.inl (h.mem_names p hp).1, Or.inl (h.mem_names p hp).2⟩
    · exact ⟨Or.inl hs, Or.inr rfl⟩
  nodup := by
    rw [links_addEdge]
    split
    · exact h.nodup
    · rename_i hnew
      exact List.nodup_append.2 ⟨h.nodup, by simp, fun a ha b hb => by
        rw [List.mem_singleton.1 hb]
        exact fun heq => hnew (heq ▸ ha)⟩

theorem mem_links_addEdges {targets : List String} {p : String × String} :
    p ∈ (targets.foldl (addEdge isDerived source rule) g).links ↔
      p ∈ g.links ∨ p.1 = source ∧ p.2 ∈ targets := by
  induction targets generalizing g with
  | nil => simp
  | cons target rest ih =>
    rw [List.foldl_cons, ih, mem_links_addEdge, or_assoc, List.mem_cons, Prod.ext_iff]
    tauto

theorem Wellformed.addEdges (h : g.Wellformed) (hs : source ∈ g.names) (targets : List String) :
    (targets.foldl (DependencyGraph.addEdge isDerived source rule) g).Wellformed ∧
      source ∈ (targets.foldl (DependencyGraph.addEdge isDerived source rule) g).names := by
  induction targets generalizing g with
  | nil => exact ⟨h, hs⟩
  | cons target rest ih => exact ih (h.addEdge hs target) (mem_names_addEdge.2 (Or.inl hs))

def addRules (extend : String → String) (isDerived : String → Bool) (source : String)
    (rules : Order) (g : DependencyGraph) : DependencyGraph :=
  rules.foldl (fun g rule =>
    ((ruleDependencies rule).map extend).foldl (addEdge isDerived source rule) g) g

theorem mem_links_addRules {rules : Order} {p : String × String} :
    p ∈ (addRules extend isDerived source rules g).links ↔ p ∈ g.links ∨
      p.1 = source ∧ ∃ rule ∈ rules, p.2 ∈ (ruleDependencies rule).map extend := by
  unfold addRules
  induction rules generalizing g with
  | nil => simp
  | cons rule rest ih =>
    rw [List.foldl_cons, ih, mem_links_addEdges, or_assoc]
    simp only [List.mem_cons, exists_eq_or_imp, and_or_left]

theorem Wellformed.addRules (h : g.Wellformed) (hs : source ∈ g.names) (rules : Order) :
    (addRules extend isDerived source rules g).Wellformed := by
  unfold DependencyGraph.addRules
  induction rules generalizing g with
  | nil => exact h
  | cons rule rest ih =>
    exact ih (h.addEdges hs _).1 (h.addEdges hs _).2

theorem mem_links_addOrder {entry : String × Order} {p : String × String} :
    p ∈ (addOrder extend isDerived g entry).links ↔ p ∈ g.links ∨
      p.1 = entry.1 ∧ ∃ rule ∈ entry.2, p.2 ∈ (ruleDependencies rule).map extend :=
  mem_links_addRules

theorem Wellformed.addOrder (h : g.Wellformed) (entry : String × Order) :
    (addOrder extend isDerived g entry).Wellformed := by
  have hnode : Wellformed { g with nodes := g.nodes.insert entry.1 true } := {
    mem_names := fun p hp => by
      obtain ⟨hsource, htarget⟩ := h.mem_names p hp
      exact ⟨Table.mem_keys_insert.2 (Or.inr hsource), Table.mem_keys_insert.2 (Or.inr htarget)⟩
    nodup := h.nodup }
  exact hnode.addRules (Table.mem_keys_insert.2 (Or.inl rfl)) entry.2

theorem wellformed_ofOrders (extend : String → String) (orders : Table Order) :
    (ofOrders extend orders).Wellformed := by
  have hfold : ∀ (entries : List (String × Order)) (g : DependencyGraph), g.Wellformed →
      (entries.foldl (DependencyGraph.addOrder extend orders.contains) g).Wellformed := by
    intro entries
    induction entries with
    | nil => exact fun g h => h
    | cons entry rest ih => exact fun g h => ih _ (h.addOrder entry)
  exact hfold _ _ ⟨fun p hp => by simp [links] at hp, List.nodup_nil⟩

/-- There is an edge for each dependency that the orders state, and for nothing else. -/
theorem mem_links_ofOrders {orders : Table Order} {p : String × String} :
    p ∈ (ofOrders extend orders).links ↔ orders.Depends extend p.1 p.2 := by
  have hfold : ∀ (entries : List (String × Order)) (g : DependencyGraph),
      p ∈ (entries.foldl (addOrder extend orders.contains) g).links ↔ p ∈ g.links ∨
        ∃ entry ∈ entries, p.1 = entry.1 ∧
          ∃ rule ∈ entry.2, p.2 ∈ (ruleDependencies rule).map extend := by
    intro entries
    induction entries with
    | nil => simp
    | cons entry rest ih =>
      intro g
      rw [List.foldl_cons, ih, mem_links_addOrder, or_assoc]
      simp only [List.mem_cons, exists_eq_or_imp]
  rw [ofOrders, hfold, Table.Depends]
  simp only [links, List.map_nil, List.not_mem_nil, false_or]
  constructor
  · rintro ⟨⟨key, rules⟩, hentry, hsource, hrule⟩
    exact ⟨rules, Table.get?_eq_some_iff.2 (hsource ▸ hentry), hrule⟩
  · rintro ⟨rules, hrules, hrule⟩
    exact ⟨(p.1, rules), Table.get?_eq_some_iff.1 hrules, rfl, hrule⟩

/-- Cutting leaves the dependencies of what is not known. -/
theorem mem_links_cutKnown {known : String → Bool} {p : String × String} :
    p ∈ (g.cutKnown known).links ↔ p ∈ g.links ∧ known p.1 = false := by
  simp only [links, cutKnown, List.mem_map, List.mem_filter, Bool.not_eq_true', ends]
  constructor
  · rintro ⟨e, ⟨he, hk⟩, rfl⟩
    exact ⟨⟨e, he, rfl⟩, hk⟩
  · rintro ⟨⟨e, he, rfl⟩, hk⟩
    exact ⟨e, ⟨he, hk⟩, rfl⟩

theorem Wellformed.cutKnown (h : g.Wellformed) (known : String → Bool) :
    (g.cutKnown known).Wellformed where
  mem_names p hp := h.mem_names p (mem_links_cutKnown.1 hp).1
  nodup := h.nodup.sublist (List.filter_sublist.map _)

end DependencyGraph
end FormulaGraph
