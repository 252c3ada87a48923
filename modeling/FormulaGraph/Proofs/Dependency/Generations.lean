import Mathlib.Data.List.Perm.Subperm
import FormulaGraph.Dependency.Order
import FormulaGraph.Proofs.Dependency.Edges

/-! Generations: each node comes after all nodes that have an edge to it. All nodes come at some
time exactly if the nodes can be ranked such that every edge leads to a lower rank. -/
namespace FormulaGraph
namespace DependencyGraph

variable {g : DependencyGraph}

def degree (degrees : Table Nat) (node : String) : Nat := (degrees.get? node).getD 0

/-- How many edges lead to a node from nodes that are not done. -/
def remaining (g : DependencyGraph) (done : List String) (node : String) : Nat :=
  g.links.countP fun p => p.2 = node && p.1 ∉ done

theorem remaining_eq_zero_iff {done : List String} {node : String} :
    g.remaining done node = 0 ↔ ∀ p ∈ g.links, p.2 = node → p.1 ∈ done := by
  simp [remaining, List.countP_eq_zero]

theorem countP_eq_add {α : Type} {xs : List α} {p q r : α → Bool} (h : ∀ a, p a = (q a || r a))
    (hqr : ∀ a, q a = true → r a = false) : xs.countP p = xs.countP q + xs.countP r := by
  induction xs with
  | nil => rfl
  | cons x rest ih =>
    simp only [List.countP_cons, ih, h x]
    cases hq : q x with
    | true => simp [hqr x hq]; omega
    | false => simp; omega

theorem count_successors (node other : String) :
    (g.successors node).count other = g.links.countP fun p => p.2 = other && p.1 = node := by
  simp only [successors, List.count, List.countP_map, List.countP_filter, links]
  refine List.countP_congr fun e _ => ?_
  simp only [Function.comp_apply, Bool.and_eq_true, beq_iff_eq, decide_eq_true_eq]
  exact Iff.rfl

theorem count_released {generation : List String} (hn : generation.Nodup) (node : String) :
    (generation.flatMap g.successors).count node =
      g.links.countP fun p => p.2 = node && p.1 ∈ generation := by
  induction generation with
  | nil => simp
  | cons first rest ih =>
    obtain ⟨hfirst, hn⟩ := List.nodup_cons.1 hn
    rw [List.flatMap_cons, List.count_append, ih hn, count_successors]
    refine (countP_eq_add (fun p => ?_) fun p hp => ?_).symm
    · simp only [List.mem_cons, Bool.decide_or, Bool.and_or_distrib_left]
    · have hsource : p.1 = first := by simp at hp; exact hp.2
      simp [hsource, hfirst]

theorem remaining_append {done generation : List String} (hn : (done ++ generation).Nodup)
    (node : String) : g.remaining done node =
      g.remaining (done ++ generation) node + (generation.flatMap g.successors).count node := by
  obtain ⟨-, hgen, hdisjoint⟩ := List.nodup_append.1 hn
  rw [count_released hgen]
  refine countP_eq_add (fun p => ?_) fun p hp => ?_
  · by_cases hd : p.1 ∈ done
    · have hg : p.1 ∉ generation := fun hg => hdisjoint p.1 hd p.1 hg rfl
      simp [hd, hg]
    · by_cases hg : p.1 ∈ generation <;> simp [hd, hg]
  · simp only [List.mem_append, not_or, Bool.and_eq_true, decide_eq_true_eq] at hp
    simp [hp.2.2]

theorem degree_insert (degrees : Table Nat) (node : String) (d : Nat) (other : String) :
    degree (degrees.insert node d) other = if other = node then d else degree degrees other := by
  unfold degree
  rw [Table.get?_insert]
  split <;> rfl

theorem degree_release (state : Table Nat × List String) (node other : String) :
    degree (release state node).1 other =
      if other = node then degree state.1 node - 1 else degree state.1 other :=
  degree_insert _ _ _ _

theorem degree_foldl_release (released : List String) (state : Table Nat × List String)
    (node : String) : degree (released.foldl release state).1 node =
      degree state.1 node - released.count node := by
  induction released generalizing state with
  | nil => rfl
  | cons first rest ih =>
    rw [List.foldl_cons, ih, degree_release]
    by_cases hne : node = first
    · subst hne
      rw [if_pos rfl, List.count_cons_self]
      omega
    · rw [if_neg hne, List.count_cons_of_ne (Ne.symm hne)]

theorem count_le_degree_release {first : String} {rest : List String}
    {state : Table Nat × List String}
    (h : ∀ node, (first :: rest).count node ≤ degree state.1 node) (node : String) :
    rest.count node ≤ degree (release state first).1 node := by
  have hnode := h node
  rw [degree_release]
  by_cases hne : node = first
  · subst hne
    rw [List.count_cons_self] at hnode
    rw [if_pos rfl]
    omega
  · rw [List.count_cons_of_ne (Ne.symm hne)] at hnode
    rwa [if_neg hne]

/-- Released nodes whose degrees come to nothing are the next ones. -/
theorem exists_foldl_release (released : List String) (state : Table Nat × List String)
    (h : ∀ node, released.count node ≤ degree state.1 node) :
    ∃ extra, (released.foldl release state).2 = state.2 ++ extra ∧ extra.Nodup ∧
      ∀ node, node ∈ extra ↔ node ∈ released ∧ degree state.1 node = released.count node := by
  induction released generalizing state with
  | nil => exact ⟨[], by simp⟩
  | cons first rest ih =>
    obtain ⟨extra, hextra, hnodup, hmem⟩ := ih (release state first) (count_le_degree_release h)
    have hfirst := h first
    rw [List.count_cons_self] at hfirst
    have hnext : (release state first).2 =
        if degree state.1 first - 1 = 0 then state.2 ++ [first] else state.2 := rfl
    have hother : ∀ node, node ≠ first → (node ∈ extra ↔
        node ∈ first :: rest ∧ degree state.1 node = (first :: rest).count node) := by
      intro node hne
      rw [hmem, degree_release, if_neg hne, List.count_cons_of_ne (Ne.symm hne), List.mem_cons,
        or_iff_right hne]
    rw [List.foldl_cons, hextra]
    by_cases hone : degree state.1 first - 1 = 0
    · -- the last edge to the first node, which the rest does not release again
      have hnew : first ∉ rest := List.count_eq_zero.1 (by omega)
      refine ⟨first :: extra, by rw [hnext, if_pos hone]; simp, ?_, fun node => ?_⟩
      · exact List.nodup_cons.2 ⟨fun hin => hnew ((hmem first).1 hin).1, hnodup⟩
      · by_cases hne : node = first
        · subst hne
          rw [List.count_cons_self]
          simp only [List.mem_cons, true_or, true_and, true_iff]
          omega
        · rw [List.mem_cons, or_iff_right hne, hother node hne]
    · refine ⟨extra, by rw [hnext, if_neg hone], hnodup, fun node => ?_⟩
      by_cases hne : node = first
      · subst hne
        rw [hmem, degree_release, if_pos rfl, List.count_cons_self]
        constructor
        · rintro ⟨-, heq⟩
          exact ⟨by simp, by omega⟩
        · rintro ⟨-, heq⟩
          have hpos : 0 < rest.count node := by omega
          exact ⟨List.count_pos_iff.1 hpos, by omega⟩
      · exact hother node hne

/-- The nodes that are done and the next generation: all nodes to which only those that are done
have edges, in an order in which edges lead forwards. -/
structure Layered (g : DependencyGraph) (done generation : List String) (degrees : Table Nat) :
    Prop where
  nodup : (done ++ generation).Nodup
  degree_eq : ∀ node, degree degrees node = g.remaining done node
  mem_iff : ∀ node, node ∈ done ++ generation ↔ node ∈ g.names ∧ g.remaining done node = 0
  forwards : ∀ p ∈ g.links, p.2 ∈ done ++ generation →
    (done ++ generation).idxOf p.1 < (done ++ generation).idxOf p.2

theorem layered_inDegrees (hg : g.Wellformed) : g.Layered []
    ((g.inDegrees.entries.filter (·.2 == 0)).map Prod.fst) g.inDegrees := by
  have hin : ∀ node, (g.edges.filter (·.target == node)).length = g.remaining [] node := by
    intro node
    simp only [remaining, links, List.countP_map, ← List.countP_eq_length_filter]
    refine List.countP_congr fun e _ => ?_
    simp only [Function.comp_apply, beq_iff_eq, Bool.and_eq_true, decide_eq_true_eq,
      List.not_mem_nil, not_false_eq_true, and_true]
    exact Iff.rfl
  have hmem : ∀ node, node ∈ [] ++ (g.inDegrees.entries.filter (·.2 == 0)).map Prod.fst ↔
      node ∈ g.names ∧ g.remaining [] node = 0 := by
    intro node
    simp only [List.nil_append, inDegrees, List.mem_map, List.mem_filter, names, Table.keys, hin]
    constructor
    · rintro ⟨entry, ⟨⟨node', hnode', rfl⟩, hzero⟩, rfl⟩
      exact ⟨⟨node', hnode', rfl⟩, by simpa using hzero⟩
    · rintro ⟨⟨node', hnode', rfl⟩, hzero⟩
      exact ⟨(node'.1, g.remaining [] node'.1), ⟨⟨node', hnode', rfl⟩, by simpa using hzero⟩, rfl⟩
  refine ⟨?_, fun node => ?_, hmem, fun p hp htarget => ?_⟩
  · exact g.inDegrees.nodup.sublist (List.filter_sublist.map _)
  · unfold degree
    cases hget : g.inDegrees.get? node with
    | none =>
      have hnot : node ∉ g.names := by
        have hkeys : g.inDegrees.keys = g.names := by simp [inDegrees, Table.keys, names]
        rw [← hkeys]
        exact Table.get?_eq_none_iff.1 hget
      refine (remaining_eq_zero_iff.2 fun p hp htarget => ?_).symm
      exact absurd (htarget ▸ (hg.mem_names p hp).2) hnot
    | some d =>
      obtain ⟨entry, -, heq⟩ := List.mem_map.1 (Table.get?_eq_some_iff.1 hget)
      obtain ⟨rfl, rfl⟩ := Prod.mk.inj heq
      exact hin _
  · have hzero := remaining_eq_zero_iff.1 ((hmem p.2).1 htarget).2 p hp rfl
    simp at hzero

theorem Layered.released {done generation : List String} {degrees : Table Nat}
    (hg : g.Wellformed) (h : g.Layered done generation degrees) {node : String}
    (hnode : node ∈ generation.flatMap g.successors)
    (heq : degree degrees node = (generation.flatMap g.successors).count node) :
    node ∉ done ++ generation ∧ g.remaining (done ++ generation) node = 0 ∧ node ∈ g.names := by
  have hcount := remaining_append (g := g) h.nodup node
  have hpos := List.count_pos_iff.2 hnode
  rw [h.degree_eq] at heq
  refine ⟨fun hold => ?_, by omega, ?_⟩
  · have hzero := ((h.mem_iff node).1 hold).2
    omega
  · rw [count_released (List.nodup_append.1 h.nodup).2.1] at hpos
    obtain ⟨p, hp, htarget⟩ := List.countP_pos_iff.1 hpos
    have heq : p.2 = node := by simp at htarget; exact htarget.1
    exact heq ▸ (hg.mem_names p hp).2

theorem Layered.next {done generation : List String} {degrees : Table Nat} (hg : g.Wellformed)
    (h : g.Layered done generation degrees) : g.Layered (done ++ generation)
      (g.nextGeneration degrees generation).2 (g.nextGeneration degrees generation).1 := by
  have hsplit := remaining_append (g := g) h.nodup
  obtain ⟨extra, hextra, hnodup, hmem⟩ :=
    exists_foldl_release (generation.flatMap g.successors) (degrees, []) fun node => by
      rw [h.degree_eq, hsplit]
      omega
  have hnext : (g.nextGeneration degrees generation).2 = extra := hextra
  have hnew : ∀ node ∈ extra, node ∉ done ++ generation ∧
      g.remaining (done ++ generation) node = 0 ∧ node ∈ g.names := by
    intro node hnode
    obtain ⟨hreleased, heq⟩ := (hmem node).1 hnode
    exact h.released hg hreleased heq
  rw [hnext]
  refine ⟨?_, fun node => ?_, fun node => ?_, fun p hp htarget => ?_⟩
  · exact List.nodup_append.2 ⟨h.nodup, hnodup, fun a ha b hb heq => (hnew b hb).1 (heq ▸ ha)⟩
  · refine (degree_foldl_release _ _ node).trans ?_
    rw [h.degree_eq, hsplit]
    omega
  · have hcount := hsplit node
    rw [List.mem_append]
    constructor
    · rintro (hold | hnode)
      · obtain ⟨hname, hzero⟩ := (h.mem_iff node).1 hold
        exact ⟨hname, by omega⟩
      · exact ⟨(hnew node hnode).2.2, (hnew node hnode).2.1⟩
    · rintro ⟨hname, hzero⟩
      by_cases hreleased : node ∈ generation.flatMap g.successors
      · refine Or.inr ((hmem node).2 ⟨hreleased, ?_⟩)
        rw [h.degree_eq]
        omega
      · have hnone := List.count_eq_zero.2 hreleased
        exact Or.inl ((h.mem_iff node).2 ⟨hname, by omega⟩)
  · by_cases hold : p.2 ∈ done ++ generation
    · have hlt := h.forwards p hp hold
      have hsource : p.1 ∈ done ++ generation :=
        List.idxOf_lt_length_iff.1 (Nat.lt_trans hlt (List.idxOf_lt_length_iff.2 hold))
      rwa [List.idxOf_append_of_mem hsource, List.idxOf_append_of_mem hold]
    · have hextra := (List.mem_append.1 htarget).resolve_left hold
      have hsource := remaining_eq_zero_iff.1 (hnew p.2 hextra).2.1 p hp rfl
      have hlt := List.idxOf_lt_length_iff.2 hsource
      rw [List.idxOf_append_of_mem hsource, List.idxOf_append_of_notMem hold]
      omega

/-- Nothing is left after as many generations as there are nodes. -/
theorem Layered.generationsFrom {count : Nat} {done generation : List String}
    {degrees : Table Nat} (hg : g.Wellformed) (h : g.Layered done generation degrees)
    (hcount : g.nodes.size ≤ done.length + count) :
    ∃ degrees', g.Layered (done ++ g.generationsFrom count degrees generation) [] degrees' := by
  have hfit : (done ++ generation).length ≤ g.names.length :=
    (h.nodup.subperm fun node hnode => ((h.mem_iff node).1 hnode).1).length_le
  have hsize : g.names.length = g.nodes.size := by simp [names, Table.keys, Table.size]
  induction count generalizing done generation degrees with
  | zero =>
    have hnil : generation = [] := by
      rw [List.length_append] at hfit
      exact List.length_eq_zero_iff.1 (by omega)
    subst hnil
    exact ⟨degrees, by simpa [DependencyGraph.generationsFrom] using h⟩
  | succ count ih =>
    cases generation with
    | nil => exact ⟨degrees, by simpa [DependencyGraph.generationsFrom] using h⟩
    | cons first rest =>
      have hnext := h.next hg
      have hfit' := (hnext.nodup.subperm fun node hnode =>
        ((hnext.mem_iff node).1 hnode).1).length_le
      have hlength : (done ++ first :: rest).length = done.length + (rest.length + 1) := by simp
      obtain ⟨degrees', hlast⟩ := ih hnext (by omega) hfit'
      exact ⟨degrees', by simpa [DependencyGraph.generationsFrom] using hlast⟩

theorem layered_byGenerations (hg : g.Wellformed) :
    ∃ degrees, g.Layered g.byGenerations [] degrees :=
  (layered_inDegrees hg).generationsFrom hg (by simp)

def Ranked (g : DependencyGraph) (rank : String → Nat) : Prop :=
  ∀ p ∈ g.links, rank p.2 < rank p.1

theorem exists_bound (rank : String → Nat) (nodes : List String) :
    ∃ bound, ∀ node ∈ nodes, rank node ≤ bound := by
  induction nodes with
  | nil => exact ⟨0, by simp⟩
  | cons first rest ih =>
    obtain ⟨bound, hbound⟩ := ih
    refine ⟨max (rank first) bound, fun node hnode => ?_⟩
    rcases List.mem_cons.1 hnode with rfl | hnode
    · exact Nat.le_max_left _ _
    · exact Nat.le_trans (hbound node hnode) (Nat.le_max_right _ _)

/-- No node is left out of a ranked graph: of those left out, take one of the highest rank. -/
theorem Layered.complete_of_ranked {nodes : List String} {degrees : Table Nat} (hg : g.Wellformed)
    (h : g.Layered nodes [] degrees) {rank : String → Nat} (hr : g.Ranked rank) :
    g.names ⊆ nodes := by
  obtain ⟨bound, hbound⟩ := exists_bound rank g.names
  have hclimb : ∀ k, ∀ node ∈ g.names, bound < rank node + k → node ∈ nodes := by
    intro k
    induction k with
    | zero => exact fun node hnode hlt => absurd (hbound node hnode) (by omega)
    | succ k ih =>
      intro node hnode hlt
      have hzero : g.remaining nodes node = 0 := remaining_eq_zero_iff.2 fun p hp htarget => by
        have hrank := hr p hp
        rw [htarget] at hrank
        exact ih p.1 (hg.mem_names p hp).1 (by omega)
      simpa using (h.mem_iff node).2 ⟨hnode, hzero⟩
  exact fun node hnode => hclimb (bound + 1) node hnode (by omega)

/-- The places of the nodes, counted from the end, rank a graph of which none is left out. -/
theorem Layered.ranked_of_complete {nodes : List String} {degrees : Table Nat}
    (hg : g.Wellformed) (h : g.Layered nodes [] degrees) (hall : g.names ⊆ nodes) :
    g.Ranked fun node => nodes.length - nodes.idxOf node := by
  intro p hp
  have htarget : p.2 ∈ nodes := hall (hg.mem_names p hp).2
  have hlt := h.forwards p hp (by simpa using htarget)
  have hlast := List.idxOf_lt_length_iff.2 htarget
  rw [List.append_nil] at hlt
  change nodes.length - nodes.idxOf p.2 < nodes.length - nodes.idxOf p.1
  omega

/-- The nodes can be put in order if and only if the graph can be ranked. -/
theorem isSome_dependenciesFirst?_iff (hg : g.Wellformed) :
    g.dependenciesFirst?.isSome = true ↔ ∃ rank, g.Ranked rank := by
  obtain ⟨degrees, h⟩ := layered_byGenerations hg
  have hnodup : g.byGenerations.Nodup := by simpa using h.nodup
  have hsub : g.byGenerations ⊆ g.names := fun node hnode =>
    ((h.mem_iff node).1 (by simpa using hnode)).1
  have hsize : g.names.length = g.nodes.size := by simp [names, Table.keys, Table.size]
  have hlength : g.byGenerations.length = g.nodes.size ↔ g.names ⊆ g.byGenerations := by
    rw [← hsize]
    constructor
    · exact fun heq => ((hnodup.subperm hsub).perm_of_length_le (Nat.le_of_eq heq.symm)).symm.subset
    · exact fun hall => Nat.le_antisymm (hnodup.subperm hsub).length_le
        ((g.nodes.nodup_keys.subperm hall).length_le)
  have hsome : g.dependenciesFirst?.isSome = true ↔ g.byGenerations.length = g.nodes.size := by
    unfold dependenciesFirst?
    dsimp only
    split <;> simp_all
  rw [hsome, hlength]
  constructor
  · exact fun hall => ⟨_, h.ranked_of_complete hg hall⟩
  · rintro ⟨rank, hr⟩
    exact h.complete_of_ranked hg hr

end DependencyGraph

/-- Identifiers can be ranked such that those that are not known depend on lower ranks only. -/
def Table.Rankable (orders : Table Order) (extend : String → String) (known : String → Bool) :
    Prop :=
  ∃ rank : String → Nat, ∀ source target, orders.Depends extend source target →
    known source = false → rank target < rank source

theorem Table.Rankable.mono {orders : Table Order} {extend : String → String}
    {known known' : String → Bool} (h : orders.Rankable extend known)
    (hk : ∀ key, known key = true → known' key = true) : orders.Rankable extend known' := by
  obtain ⟨rank, hrank⟩ := h
  refine ⟨rank, fun source target hdepends hknown => hrank source target hdepends ?_⟩
  cases hs : known source with
  | false => rfl
  | true => simp [hk source hs] at hknown

theorem checkAcyclic_ok_iff {extend : String → String} {orders : Table Order}
    {known : String → Bool} :
    (∃ names, checkAcyclic extend orders known = .ok names) ↔ orders.Rankable extend known := by
  have hg := (DependencyGraph.wellformed_ofOrders extend orders).cutKnown known
  have hlinks : ∀ rank, DependencyGraph.Ranked
      ((DependencyGraph.ofOrders extend orders).cutKnown known) rank ↔
      ∀ source target, orders.Depends extend source target → known source = false →
        rank target < rank source := by
    intro rank
    simp only [DependencyGraph.Ranked, Prod.forall, DependencyGraph.mem_links_cutKnown,
      DependencyGraph.mem_links_ofOrders, and_imp]
  rw [Table.Rankable, ← exists_congr hlinks, ← DependencyGraph.isSome_dependenciesFirst?_iff hg,
    checkAcyclic]
  cases ((DependencyGraph.ofOrders extend orders).cutKnown known).dependenciesFirst? with
  | none => simp
  | some names => simp

end FormulaGraph
