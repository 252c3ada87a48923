import FormulaGraph.Proofs.Dependency.Walks
import FormulaGraph.Proofs.Evaluation.Termination

/-! The guard against cycles is exact. The identifiers under evaluation are a walk along the edges
of the dependency graph, and a cycle that is reported is the end of that walk. An evaluation that
succeeds leaves no dependency behind, and each has its value before what depends on it has one. -/
namespace FormulaGraph

namespace DependencyGraph

/-- There is an edge from `source` to `target`, and neither has a value. -/
structure LeadsOpen (g : DependencyGraph) (values : Table Value) (source target : String) :
    Prop where
  leads : g.Leads source target
  source : values.get? source = none
  target : values.get? target = none

end DependencyGraph

namespace Session

def graph (s : Session) : DependencyGraph := .ofOrders s.namespaces.extend s.orders

variable {s t : Session} {start ref : String} {cycle : List String}

theorem GrowsTo.graph (h : s.GrowsTo t) : t.graph = s.graph := by
  rw [Session.graph, h.namespaces, h.orders]
  rfl

/-- The identifiers under evaluation and the one to be resolved are a walk on the dependency graph,
all of it reachable from `start`. -/
structure Walking (s : Session) (start ref : String) : Prop where
  walk : (s.inProgress ++ [s.namespaces.extend ref]).IsChain s.graph.Leads
  reached : ∀ key ∈ s.inProgress ++ [s.namespaces.extend ref],
    Relation.ReflTransGen s.graph.Leads start key

/-- A cycle of identifiers with orders and no values, reachable from `start`. -/
structure Closes (s : Session) (start : String) (cycle : List String) : Prop where
  isCycle : s.graph.IsCycle cycle
  unsettled : ∀ key ∈ cycle, key ∈ s.orders.keys ∧ s.values.get? key = none
  reached : ∀ key ∈ cycle, Relation.ReflTransGen s.graph.Leads start key

theorem Walking.growsTo (h : s.Walking start ref) (ht : s.GrowsTo t) : t.Walking start ref := by
  obtain ⟨hwalk, hreached⟩ := h
  rw [← ht.graph, ← ht.inProgress, ← ht.namespaces] at hwalk hreached
  exact ⟨hwalk, hreached⟩

theorem Walking.enter (h : s.Walking start ref) {rules : Order} (ho : s.Opens ref rules)
    {name : String} (hname : rules.Resolves name) :
    (s.enter (s.namespaces.extend ref)).Walking start name := by
  obtain ⟨rule, hrule, hname⟩ := hname
  have hleads : s.graph.Leads (s.namespaces.extend ref) (s.namespaces.extend name) :=
    DependencyGraph.leads_ofOrders_iff.2
      ⟨rules, ho.order, rule, hrule, List.mem_map.2 ⟨name, hname, rfl⟩⟩
  constructor
  · change (s.inProgress ++ [s.namespaces.extend ref] ++ [s.namespaces.extend name]).IsChain
      s.graph.Leads
    refine h.walk.append (.singleton _) fun last hlast next hnext => ?_
    obtain rfl : s.namespaces.extend ref = last := by simpa using hlast
    obtain rfl : s.namespaces.extend name = next := by simpa using hnext
    exact hleads
  · intro key hkey
    rcases List.mem_append.1 hkey with hkey | hkey
    · exact h.reached key hkey
    · rw [List.mem_singleton.1 hkey]
      exact (h.reached _ (List.mem_append_right _ (by simp))).tail hleads

theorem Walking.closes_cycleAt (h : s.Walking start ref) {depth : Nat} (hroom : s.Roomy depth)
    (hmem : s.namespaces.extend ref ∈ s.inProgress) :
    s.Closes start (s.cycleAt (s.namespaces.extend ref)) := by
  obtain ⟨hwalk, hreached⟩ := h
  have hnodup := hroom.nodup
  have hopen : ∀ key ∈ s.inProgress, key ∈ s.orders.keys ∧ s.values.get? key = none :=
    fun key hkey => ⟨hroom.subset hkey, hroom.unsettled key hkey⟩
  unfold cycleAt
  generalize s.namespaces.extend ref = key at *
  obtain ⟨before, inside, hstack, hbefore⟩ := List.eq_append_cons_of_mem hmem
  have hdrop : s.inProgress.dropWhile (· != key) = key :: inside := by
    rw [hstack, List.dropWhile_append_of_pos, List.dropWhile_cons_of_neg (by simp)]
    intro other hother
    simpa using fun heq : other = key => hbefore (heq ▸ hother)
  have hsub : ∀ k ∈ key :: inside ++ [key], k ∈ s.inProgress := by
    intro k hk
    rw [hstack]
    simp only [List.mem_append, List.mem_cons, List.not_mem_nil, or_false] at hk ⊢
    tauto
  rw [hdrop]
  refine ⟨⟨?_, ?_, ?_, ?_⟩, fun k hk => hopen k (hsub k hk), fun k hk => ?_⟩
  · rw [List.getLast?_concat]
    rfl
  · simp
  · rw [List.dropLast_concat]
    rw [hstack] at hnodup
    exact hnodup.of_append_right
  · rw [hstack, List.append_assoc] at hwalk
    exact hwalk.right_of_append
  · exact hreached k (List.mem_append_left _ (hsub k hk))

end Session

def Evaluation.guarded (start : String) : Protocol where
  keeps := Session.GrowsTo
  breaks e s t := s.GrowsTo t ∧ ∀ cycle, e = .cyclic cycle → t.Closes start cycle
  refl := .refl
  trans := @Session.GrowsTo.trans
  after h h' := ⟨h.trans h'.1, h'.2⟩
  namespaces := @Session.GrowsTo.namespaces
  known := @Session.GrowsTo.get?_mono
  fault _ _ s := ⟨.refl s, nofun⟩
  arithmetic _ s := ⟨.refl s, nofun⟩
  ready depth ref s := s.Roomy depth ∧ s.Walking start ref
  still h ht := ⟨h.1.growsTo ht, h.2.growsTo ht⟩
  tooDeep _ := ⟨.refl _, nofun⟩
  undefined _ _ _ := ⟨.refl _, nofun⟩
  cyclic := by
    rintro depth ref s rules ⟨hroom, hwalk⟩ - - hmem
    refine ⟨.refl s, ?_⟩
    rintro _ ⟨⟩
    exact hwalk.closes_cycleAt hroom hmem
  enter h ho _ hname := ⟨h.1.enter ho, h.2.enter ho hname⟩
  leave h ho hst hv _ := .leave h.1.unsettled ho hst hv
  unwritable h ho hst hv _ := ⟨.leave h.1.unsettled ho hst hv, nofun⟩
  escape := by
    rintro depth ref s rules t e - - ⟨hst, hcloses⟩
    exact ⟨hst.pop, fun cycle he =>
      ⟨(hcloses cycle he).isCycle, (hcloses cycle he).unsettled, (hcloses cycle he).reached⟩⟩

namespace Session

variable {s t : Session} {identifier : String}

theorem closes_of_resolve (hs : s.inProgress = []) {cycle : List String}
    (hr : s.resolve identifier = (.error (.cyclic cycle), t)) :
    s.GrowsTo t ∧ t.Closes (s.namespaces.extend identifier) cycle := by
  have hwalk : s.Walking (s.namespaces.extend identifier) identifier := by
    constructor
    · rw [hs]
      exact .singleton _
    · rw [hs]
      simp only [List.nil_append, List.mem_singleton, forall_eq]
      exact .refl
  have hready : (Evaluation.guarded (s.namespaces.extend identifier)).ready s.depth identifier s :=
    ⟨roomy_of_idle hs, hwalk⟩
  have hbreaks := ((Evaluation.guarded _).ensures_resolve hready).err_of_run hr
  exact ⟨hbreaks.1, hbreaks.2 cycle rfl⟩

/-- What depends on something new has got its value after it. -/
theorem GrowsTo.idxOf_lt_of_leadsOpen (h : s.GrowsTo t) {source target : String}
    (he : s.graph.LeadsOpen s.values source target) (hmem : source ∈ t.values.keys) :
    t.values.keys.idxOf target < t.values.keys.idxOf source := by
  obtain ⟨rules, hrules, rule, hrule, htarget⟩ := DependencyGraph.leads_ofOrders_iff.1 he.leads
  obtain ⟨ref, href, rfl⟩ := List.mem_map.1 htarget
  exact h.values.idxOf_lt hmem he.source hrules hrule (Rule.dependencies_subset rule href)

theorem GrowsTo.mem_keys_of_leadsOpen (h : s.GrowsTo t) {source target : String}
    (he : s.graph.LeadsOpen s.values source target) (hmem : source ∈ t.values.keys) :
    target ∈ t.values.keys :=
  List.idxOf_lt_length_iff.1 ((h.idxOf_lt_of_leadsOpen he hmem).trans
    (List.idxOf_lt_length_iff.2 hmem))

theorem GrowsTo.mem_keys_of_reflTransGen (h : s.GrowsTo t) {source target : String}
    (hpath : Relation.ReflTransGen (s.graph.LeadsOpen s.values) source target)
    (hmem : source ∈ t.values.keys) : target ∈ t.values.keys := by
  induction hpath with
  | refl => exact hmem
  | tail _ he ih => exact h.mem_keys_of_leadsOpen he ih

theorem GrowsTo.idxOf_lt_of_transGen (h : s.GrowsTo t) {source target : String}
    (hpath : Relation.TransGen (s.graph.LeadsOpen s.values) source target)
    (hmem : source ∈ t.values.keys) :
    t.values.keys.idxOf target < t.values.keys.idxOf source := by
  induction hpath with
  | single he => exact h.idxOf_lt_of_leadsOpen he hmem
  | tail hpath he ih =>
    exact (h.idxOf_lt_of_leadsOpen he (h.mem_keys_of_reflTransGen hpath.to_reflTransGen hmem)).trans
      ih

end Session

/-- **The guard against cycles is exact.** A reported cycle is one of the dependency graph, among
identifiers with orders and no values, and can be reached from the identifier that was asked for.
Where resolving gives a value, no walk through identifiers without values leads to a cycle. -/
theorem cycle_guard_exact (ns : Namespaces) (orders : Table Order) (values : Table Value)
    (history : List Session.Action) (identifier : String) :
    let s := (Session.new ns orders values).through history
    let g := DependencyGraph.ofOrders s.namespaces.extend s.orders
    let key := s.namespaces.extend identifier
    (∀ cycle t, s.resolve identifier = (.error (.cyclic cycle), t) →
      g.IsCycle cycle ∧
      (∀ k ∈ cycle, k ∈ s.orders.keys ∧ t.values.get? k = none) ∧
      ∀ k ∈ cycle, Relation.ReflTransGen g.Leads key k) ∧
    (∀ v t, s.resolve identifier = (.ok v, t) →
      ∀ k, Relation.ReflTransGen (g.LeadsOpen s.values) key k →
        ¬ Relation.TransGen (g.LeadsOpen s.values) k k) := by
  intro s g key
  have hs : s.inProgress = [] := Session.inProgress_through rfl history
  constructor
  · intro cycle t hr
    obtain ⟨hst, hcycle, hunsettled, hreached⟩ := Session.closes_of_resolve hs hr
    rw [hst.graph] at hcycle hreached
    rw [hst.orders] at hunsettled
    exact ⟨hcycle, hunsettled, hreached⟩
  · intro v t hr k hpath hloop
    have hunsettled : s.Unsettled := by simp [Session.Unsettled, hs]
    have hst := Session.growsTo_of_resolve hunsettled hr
    have hkey : key ∈ t.values.keys := by
      have hknown := Session.known_of_resolve hunsettled hr
      rw [Session.known, hst.namespaces] at hknown
      exact Table.mem_keys_iff.2 ⟨v, hknown⟩
    have hk := hst.mem_keys_of_reflTransGen hpath hkey
    exact Nat.lt_irrefl _ (hst.idxOf_lt_of_transGen hloop hk)

/-- The order of `c` leads to two that need each other, that of `e` to a value. -/
theorem cycle_guard_exact_of_loop :
    let orders : Table Order := Table.ofList [("a", [.text "[b]+1"]), ("b", [.text "[a]+1"]),
      ("c", [.text "[a]*2"]), ("e", [.text "[d]*2"])]
    let s := Session.new .standard orders (Table.ofList [("d", .int 1)])
    (∃ t, s.resolve "c" = (.error (.cyclic ["a", "b", "a"]), t) ∧
      s.graph.IsCycle ["a", "b", "a"] ∧ t.values.get? "a" = none ∧
      Relation.ReflTransGen s.graph.Leads "c" "a") ∧
    ∃ v t, s.resolve "e" = (.ok v, t) ∧
      ¬ Relation.TransGen (s.graph.LeadsOpen s.values) "e" "e" := by
  intro orders s
  constructor
  · obtain ⟨t, ht⟩ : ∃ t, s.resolve "c" = (.error (.cyclic ["a", "b", "a"]), t) := ⟨_, rfl⟩
    obtain ⟨hcycle, hunsettled, hreached⟩ := (cycle_guard_exact .standard orders
      (Table.ofList [("d", .int 1)]) [] "c").1 _ t ht
    exact ⟨t, ht, hcycle, (hunsettled "a" (by simp)).2, hreached "a" (by simp)⟩
  · obtain ⟨v, t, ht⟩ : ∃ v t, s.resolve "e" = (.ok v, t) := ⟨_, _, rfl⟩
    exact ⟨v, t, ht, (cycle_guard_exact .standard orders (Table.ofList [("d", .int 1)]) [] "e").2
      v t ht "e" .refl⟩

end FormulaGraph
