import Mathlib.Logic.Function.Iterate
import FormulaGraph.Dependency.Order
import FormulaGraph.Proofs.Dependency.Generations
import FormulaGraph.Proofs.Dependency.Walks

/-! The cycles that are listed are all cycles of the graph, each once. A graph has none exactly if its
nodes can be put in order, and then dependencies come first. -/
namespace FormulaGraph
namespace DependencyGraph

variable {g : DependencyGraph} {start node last : String} {allowed earlier more cycle : List String}

/-- Nodes that close a walk which ends in `last`: each is allowed, and none is passed twice. -/
structure ClosesWith (g : DependencyGraph) (start : String) (allowed path : List String) (last : String)
    (more : List String) : Prop where
  walk : (last :: (more ++ [start])).IsChain g.Leads
  distinct : more.Nodup
  new : ∀ node ∈ more, node ∈ allowed ∧ node ≠ start ∧ node ∉ path

theorem closesWith_nil_iff {path : List String} :
    g.ClosesWith start allowed path last [] ↔ g.Leads last start := by
  constructor
  · exact fun h => (List.isChain_cons_cons.1 h.walk).1
  · exact fun h => ⟨.cons_cons h (.singleton _), List.nodup_nil, by simp⟩

theorem closesWith_cons_iff {path : List String} :
    g.ClosesWith start allowed path last (node :: more) ↔
      (g.Leads last node ∧ node ∈ allowed ∧ node ≠ start ∧ node ∉ path) ∧
        g.ClosesWith start allowed (node :: path) node more := by
  constructor
  · rintro ⟨hwalk, hdistinct, hnew⟩
    obtain ⟨hleads, hrest⟩ := List.isChain_cons_cons.1 hwalk
    obtain ⟨hnode, hdistinct⟩ := List.nodup_cons.1 hdistinct
    refine ⟨⟨hleads, hnew node List.mem_cons_self⟩, hrest, hdistinct, fun k hk => ?_⟩
    obtain ⟨hallowed, hstart, hpath⟩ := hnew k (List.mem_cons_of_mem _ hk)
    exact ⟨hallowed, hstart, by simp [hpath, ne_of_mem_of_not_mem hk hnode]⟩
  · rintro ⟨⟨hleads, hnode⟩, hwalk, hdistinct, hnew⟩
    refine ⟨.cons_cons hleads hwalk, List.nodup_cons.2 ⟨fun hmem => ?_, hdistinct⟩, fun k hk => ?_⟩
    · exact (hnew node hmem).2.2 List.mem_cons_self
    · rcases List.mem_cons.1 hk with rfl | hk
      · exact hnode
      · obtain ⟨hallowed, hstart, hpath⟩ := hnew k hk
        exact ⟨hallowed, hstart, fun hmem => hpath (List.mem_cons_of_mem _ hmem)⟩

theorem mem_closings_iff {steps : Nat} : cycle ∈ g.closings start allowed steps (last :: earlier) ↔
    ∃ more, more.length ≤ steps ∧ g.ClosesWith start allowed (last :: earlier) last more ∧
      cycle = (last :: earlier).reverse ++ (more ++ [start]) := by
  induction steps generalizing last earlier with
  | zero =>
    simp only [Nat.le_zero_eq, List.length_eq_zero_iff, exists_eq_left, closesWith_nil_iff]
    rw [closings, List.mem_flatMap]
    constructor
    · rintro ⟨node, hnode, hcycle⟩
      split at hcycle
      · rename_i heq
        exact ⟨heq ▸ hnode, by simpa using hcycle⟩
      · simp at hcycle
    · rintro ⟨hleads, rfl⟩
      exact ⟨start, hleads, by simp⟩
  | succ steps ih =>
    rw [closings, List.mem_flatMap]
    dsimp only
    constructor
    · rintro ⟨node, hnode, hcycle⟩
      split at hcycle
      · rename_i heq
        exact ⟨[], Nat.zero_le _, closesWith_nil_iff.2 (heq ▸ hnode), by simpa using hcycle⟩
      · rename_i hne
        split at hcycle
        · rename_i hfresh
          obtain ⟨more, hlength, hcloses, rfl⟩ := ih.1 hcycle
          refine ⟨node :: more, Nat.succ_le_succ hlength, closesWith_cons_iff.2 ⟨?_, hcloses⟩, ?_⟩
          · simp only [Bool.and_eq_true, List.contains_iff_mem, Bool.not_eq_true',
              ← Bool.not_eq_true] at hfresh
            exact ⟨hnode, hfresh.1, hne, hfresh.2⟩
          · simp
        · simp at hcycle
    · rintro ⟨more, hlength, hcloses, rfl⟩
      cases more with
      | nil => exact ⟨start, closesWith_nil_iff.1 hcloses, by simp⟩
      | cons node more =>
        obtain ⟨⟨hleads, hallowed, hstart, hpath⟩, hrest⟩ := closesWith_cons_iff.1 hcloses
        refine ⟨node, hleads, ?_⟩
        rw [if_neg hstart, if_pos]
        · exact ih.2 ⟨more, Nat.le_of_succ_le_succ hlength, hrest, by simp⟩
        · simp only [Bool.and_eq_true, List.contains_iff_mem, Bool.not_eq_true', ← Bool.not_eq_true]
          exact ⟨hallowed, hpath⟩

variable {reached : List String}

theorem mem_widen_iff {ok : String → Bool} : node ∈ g.widen ok reached ↔
    node ∈ reached ∨ node ∈ g.names ∧ ok node = true ∧ ∃ next ∈ reached, g.Leads node next := by
  simp only [widen, List.mem_append, List.mem_filter, Bool.and_eq_true, Bool.not_eq_true',
    ← Bool.not_eq_true, List.any_eq_true, List.contains_iff_mem, Leads]
  constructor
  · rintro (hold | ⟨hname, ⟨hok, -⟩, next, hleads, hnext⟩)
    · exact Or.inl hold
    · exact Or.inr ⟨hname, hok, next, hnext, hleads⟩
  · rintro (hold | ⟨hname, hok, next, hnext, hleads⟩)
    · exact Or.inl hold
    · by_cases hold : node ∈ reached
      · exact Or.inl hold
      · exact Or.inr ⟨hname, ⟨hok, hold⟩, next, hleads, hnext⟩

theorem reaching_eq : g.reaching start =
    (g.widen fun node => start ≤ node)^[g.names.length] [start] :=
  List.foldl_const _ _ _

/-- What reaches the start by nodes that are not less than it is not less itself. -/
theorem le_of_mem_reaching (h : node ∈ g.reaching start) : start ≤ node := by
  rw [reaching_eq] at h
  generalize g.names.length = rounds at h
  induction rounds with
  | zero => exact (List.mem_singleton.1 h).symm.le
  | succ rounds ih =>
    rw [Function.iterate_succ_apply'] at h
    rcases mem_widen_iff.1 h with hold | ⟨-, hle, -⟩
    · exact ih hold
    · exact of_decide_eq_true hle

/-- After as many rounds as a walk has edges, its first node is known to reach the start. -/
theorem mem_iterate_widen {rounds : Nat} (hwalk : (node :: (more ++ [start])).IsChain g.Leads)
    (hnames : ∀ k ∈ node :: more, k ∈ g.names ∧ start ≤ k) (hrounds : more.length < rounds) :
    node ∈ (g.widen fun node => start ≤ node)^[rounds] [start] := by
  have hstart : ∀ n, start ∈ (g.widen fun node => start ≤ node)^[n] [start] := by
    intro n
    induction n with
    | zero => simp
    | succ n ih =>
      rw [Function.iterate_succ_apply']
      exact mem_widen_iff.2 (Or.inl ih)
  induction more generalizing node rounds with
  | nil =>
    obtain ⟨n, rfl⟩ := Nat.exists_eq_succ_of_ne_zero (Nat.ne_of_gt hrounds)
    rw [Function.iterate_succ_apply']
    obtain ⟨hname, hle⟩ := hnames node List.mem_cons_self
    exact mem_widen_iff.2 (Or.inr ⟨hname, decide_eq_true hle, start, hstart n,
      (List.isChain_cons_cons.1 hwalk).1⟩)
  | cons next more ih =>
    obtain ⟨n, rfl⟩ := Nat.exists_eq_succ_of_ne_zero (Nat.ne_of_gt (Nat.zero_lt_of_lt hrounds))
    rw [Function.iterate_succ_apply']
    obtain ⟨hleads, hrest⟩ := List.isChain_cons_cons.1 hwalk
    obtain ⟨hname, hle⟩ := hnames node List.mem_cons_self
    exact mem_widen_iff.2 (Or.inr ⟨hname, decide_eq_true hle, next,
      ih hrest (fun k hk => hnames k (List.mem_cons_of_mem _ hk)) (Nat.lt_of_succ_lt_succ hrounds),
      hleads⟩)

/-- Every cycle is listed as it is written from its least node, and nothing else is. -/
theorem mem_cycles_iff (hg : g.Wellformed) :
    cycle ∈ g.cycles ↔ g.IsCycle cycle ∧ StartsLeast cycle := by
  have hsize : g.names.length = g.nodes.size := by simp [names, Table.keys, Table.size]
  unfold cycles
  rw [List.mem_mergeSort, List.mem_flatMap]
  constructor
  · rintro ⟨start, -, hcycle⟩
    obtain ⟨more, -, ⟨hwalk, hdistinct, hnew⟩, rfl⟩ := mem_closings_iff.1 hcycle
    refine ⟨isCycle_closed_iff.2 ⟨List.nodup_cons.2 ⟨fun hmem => ?_, hdistinct⟩, hwalk⟩, ?_⟩
    · exact (hnew start hmem).2.1 rfl
    · rintro _ ⟨⟩ node hnode
      simp only [List.reverse_singleton, List.singleton_append, List.mem_cons, List.mem_append,
        List.not_mem_nil, or_false] at hnode
      rcases hnode with rfl | hnode | rfl
      · exact le_rfl
      · exact le_of_mem_reaching (hnew node hnode).1
      · exact le_rfl
  · rintro ⟨hcycle, hleast⟩
    obtain ⟨start, more, rfl⟩ := hcycle.exists_eq
    obtain ⟨hdistinct, hwalk⟩ := isCycle_closed_iff.1 hcycle
    obtain ⟨hstart, hdistinct'⟩ := List.nodup_cons.1 hdistinct
    have hnames : ∀ k ∈ start :: (more ++ [start]), k ∈ g.names ∧ start ≤ k := by
      intro k hk
      obtain ⟨next, hleads, -⟩ := Relation.TransGen.head'_iff.1 (hcycle.transGen hk)
      exact ⟨(hg.mem_of_leads hleads).1, hleast start rfl k hk⟩
    have hlength : (start :: more).length ≤ g.names.length :=
      (hdistinct.subperm fun k hk => (hnames k (by simp at hk ⊢; tauto)).1).length_le
    refine ⟨start, (hnames start List.mem_cons_self).1, mem_closings_iff.2 ⟨more, ?_, ?_, rfl⟩⟩
    · rw [← hsize]
      exact Nat.le_of_succ_le hlength
    · refine ⟨hwalk, hdistinct', fun node hnode => ⟨?_, ?_, ?_⟩⟩
      · obtain ⟨before, after, rfl⟩ := List.append_of_mem hnode
        have hsuffix : (node :: (after ++ [start])).IsChain g.Leads :=
          hwalk.suffix ⟨start :: before, by simp⟩
        rw [reaching_eq]
        refine mem_iterate_widen hsuffix (fun k hk => hnames k (by simp at hk ⊢; tauto)) ?_
        simp only [List.length_cons, List.length_append] at hlength
        omega
      · exact fun heq => hstart (heq ▸ hnode)
      · exact fun heq => hstart (List.mem_singleton.1 heq ▸ hnode)

theorem existsUnique_listed (hg : g.Wellformed) (h : g.IsCycle cycle) :
    ∃! listed, listed ∈ g.cycles ∧ SameCycle listed cycle := by
  obtain ⟨least, hcycle, hleast, hsame⟩ := h.exists_startsLeast
  refine ⟨least, ⟨(mem_cycles_iff hg).2 ⟨hcycle, hleast⟩, hsame⟩, ?_⟩
  rintro other ⟨hother, hsame'⟩
  obtain ⟨hcycle', hleast'⟩ := (mem_cycles_iff hg).1 hother
  exact hcycle'.eq_of_sameCycle hcycle hleast' hleast (hsame'.trans hsame.symm)

/-- The number of nodes that can be reached falls along every edge of a graph without cycles. -/
theorem exists_ranked_iff (hg : g.Wellformed) :
    (∃ rank, g.Ranked rank) ↔ ¬ ∃ cycle, g.IsCycle cycle := by
  classical
  constructor
  · rintro ⟨rank, hrank⟩ ⟨cycle, hcycle⟩
    have hfall : ∀ a b, Relation.TransGen g.Leads a b → rank b < rank a := by
      intro a b hab
      induction hab with
      | single h => exact hrank _ (leads_iff.1 h)
      | tail _ h ih => exact (hrank _ (leads_iff.1 h)).trans ih
    obtain ⟨start, more, rfl⟩ := hcycle.exists_eq
    exact Nat.lt_irrefl _ (hfall start start (hcycle.transGen List.mem_cons_self))
  · intro hnone
    have hacyclic : ∀ k, ¬ Relation.TransGen g.Leads k k := fun k hk =>
      hnone ((exists_isCycle hk).imp' _ fun _ h => h)
    refine ⟨fun node => (g.names.toFinset.filter (Relation.TransGen g.Leads node)).card, ?_⟩
    rintro ⟨source, target⟩ hlink
    have hleads : g.Leads source target := leads_iff.2 hlink
    refine Finset.card_lt_card (Finset.ssubset_iff_of_subset ?_ |>.2 ⟨target, ?_, ?_⟩)
    · intro k hk
      obtain ⟨hname, hreach⟩ := Finset.mem_filter.1 hk
      exact Finset.mem_filter.2 ⟨hname, hreach.head hleads⟩
    · simp [(hg.mem_of_leads hleads).2, Relation.TransGen.single hleads]
    · simp [hacyclic target]

theorem dependenciesFirst?_eq_some {names : List String} (hg : g.Wellformed)
    (h : g.dependenciesFirst? = some names) :
    names.Perm g.names ∧ names.Pairwise fun a b => ¬ g.Leads a b := by
  obtain ⟨degrees, hlayered⟩ := layered_byGenerations hg
  have hnodup : g.byGenerations.Nodup := by simpa using hlayered.nodup
  have hsub : g.byGenerations ⊆ g.names := fun node hnode =>
    ((hlayered.mem_iff node).1 (by simpa using hnode)).1
  have hsize : g.names.length = g.nodes.size := by simp [DependencyGraph.names, Table.keys, Table.size]
  unfold dependenciesFirst? at h
  dsimp only at h
  split at h
  · rename_i hlength
    obtain rfl := Option.some.inj h
    refine ⟨(List.reverse_perm _).trans ((hnodup.subperm hsub).perm_of_length_le ?_),
      List.pairwise_reverse.2 (List.pairwise_iff_getElem.2 fun i j hi hj hij hleads => ?_)⟩
    · rw [hsize, hlength]
    · have hlt := hlayered.forwards _ (leads_iff.1 hleads) (by simp)
      rw [List.append_nil, hnodup.idxOf_getElem, hnodup.idxOf_getElem] at hlt
      omega
  · contradiction

theorem idxOf_lt_of_pairwise {names : List String} (h : names.Pairwise fun a b => ¬ g.Leads a b)
    {u v : String} (hu : u ∈ names) (hv : v ∈ names) (hleads : g.Leads u v) (hne : u ≠ v) :
    names.idxOf v < names.idxOf u := by
  have hiu := List.idxOf_lt_length_iff.2 hu
  have hiv := List.idxOf_lt_length_iff.2 hv
  by_contra hle
  have hlt : names.idxOf u < names.idxOf v :=
    lt_of_le_of_ne (not_lt.1 hle) fun heq => hne ((List.idxOf_inj hu).1 heq)
  have hno := List.pairwise_iff_getElem.1 h _ _ hiu hiv hlt
  rw [List.getElem_idxOf hiu, List.getElem_idxOf hiv] at hno
  exact hno hleads

variable {extend : String → String} {isDerived : String → Bool}

theorem mem_names_addEdges {source : String} {rule : Value} {targets : List String} {name : String} :
    name ∈ (targets.foldl (addEdge isDerived source rule) g).names ↔
      name ∈ g.names ∨ name ∈ targets := by
  induction targets generalizing g with
  | nil => simp
  | cons target rest ih => rw [List.foldl_cons, ih, mem_names_addEdge, or_assoc, List.mem_cons]

theorem mem_names_addRules {source : String} {rules : Order} {name : String} (h : name ∈ g.names) :
    name ∈ (addRules extend isDerived source rules g).names := by
  unfold addRules
  induction rules generalizing g with
  | nil => exact h
  | cons rule rest ih => exact ih (mem_names_addEdges.2 (Or.inl h))

theorem mem_names_ofOrders {orders : Table Order} {key : String} (h : key ∈ orders.keys) :
    key ∈ (ofOrders extend orders).names := by
  have hfold : ∀ (entries : List (String × Order)) (g : DependencyGraph),
      key ∈ g.names ∨ key ∈ entries.map Prod.fst →
        key ∈ (entries.foldl (addOrder extend orders.contains) g).names := by
    intro entries
    induction entries with
    | nil => simp
    | cons entry rest ih =>
      intro g hkey
      refine ih _ ?_
      rw [List.map_cons, List.mem_cons] at hkey
      rcases hkey with hkey | rfl | hkey
      · exact Or.inl (mem_names_addRules (Table.mem_keys_insert.2 (Or.inr hkey)))
      · exact Or.inl (mem_names_addRules (Table.mem_keys_insert.2 (Or.inl rfl)))
      · exact Or.inr hkey
  exact hfold _ _ (Or.inr h)

end DependencyGraph

/-- **Looking for cycles decides whether there is one, and puts dependencies first.** The graph is that
of the orders without what identifiers with values depend on. A list that is returned holds each
identifier with an order once, and behind the ones that it depends on. Cycles that are reported
instead are all that there are, each written once, from one of its nodes. -/
theorem checkAcyclic_exact (extend : String → String) (orders : Table Order)
    (known : String → Bool) :
    let g := (DependencyGraph.ofOrders extend orders).cutKnown known
    ((∃ names, checkAcyclic extend orders known = .ok names) ↔ ¬ ∃ cycle, g.IsCycle cycle) ∧
    (∀ names, checkAcyclic extend orders known = .ok names →
      names.Perm orders.keys ∧ ∀ u ∈ orders.keys, ∀ v ∈ orders.keys, g.Leads u v →
        names.idxOf v < names.idxOf u) ∧
    (∀ cycles, checkAcyclic extend orders known = .error cycles →
      cycles ≠ [] ∧ (∀ cycle ∈ cycles, g.IsCycle cycle) ∧
        ∀ cycle, g.IsCycle cycle →
          ∃! listed, listed ∈ cycles ∧ DependencyGraph.SameCycle listed cycle) := by
  intro g
  have hg : g.Wellformed := (DependencyGraph.wellformed_ofOrders extend orders).cutKnown known
  have hdecide := (DependencyGraph.isSome_dependenciesFirst?_iff hg).trans
    (DependencyGraph.exists_ranked_iff hg)
  cases hfirst : g.dependenciesFirst? with
  | some nodes =>
    have hcheck : checkAcyclic extend orders known = .ok (nodes.filter orders.contains) := by
      simp only [checkAcyclic, g, hfirst]
    rw [hfirst] at hdecide
    rw [hcheck]
    have hnone := hdecide.1 rfl
    obtain ⟨hperm, hpairwise⟩ := DependencyGraph.dependenciesFirst?_eq_some hg hfirst
    have hmem : ∀ key, key ∈ nodes.filter orders.contains ↔ key ∈ orders.keys := by
      intro key
      rw [List.mem_filter, Table.contains_iff, hperm.mem_iff]
      exact ⟨And.right, fun h => ⟨DependencyGraph.mem_names_ofOrders h, h⟩⟩
    refine ⟨⟨fun _ => hnone, fun _ => ⟨_, rfl⟩⟩, ?_, by rintro _ ⟨⟩⟩
    rintro _ ⟨⟩
    refine ⟨(List.perm_ext_iff_of_nodup (((hperm.nodup_iff).2 g.nodes.nodup_keys).filter _)
      orders.nodup_keys).2 hmem, fun u hu v hv hleads => ?_⟩
    refine DependencyGraph.idxOf_lt_of_pairwise (hpairwise.filter _) ((hmem u).2 hu) ((hmem v).2 hv)
      hleads ?_
    rintro rfl
    exact hnone ((DependencyGraph.exists_isCycle (.single hleads)).imp' _ fun _ h => h)
  | none =>
    have hcheck : checkAcyclic extend orders known = .error g.cycles := by
      simp only [checkAcyclic, g, hfirst]
    rw [hfirst] at hdecide
    rw [hcheck]
    obtain ⟨cycle, hcycle⟩ := not_not.1 (mt hdecide.2 (by simp))
    refine ⟨⟨by rintro ⟨_, ⟨⟩⟩, fun hnone => absurd ⟨cycle, hcycle⟩ hnone⟩, by rintro _ ⟨⟩, ?_⟩
    rintro _ ⟨⟩
    have hlisted : ∀ cycle, g.IsCycle cycle →
        ∃! listed, listed ∈ g.cycles ∧ DependencyGraph.SameCycle listed cycle := fun _ =>
      DependencyGraph.existsUnique_listed hg
    refine ⟨fun hnil => ?_, fun cycle h => ((DependencyGraph.mem_cycles_iff hg).1 h).1, hlisted⟩
    obtain ⟨listed, ⟨hmem, -⟩, -⟩ := hlisted cycle hcycle
    rw [hnil] at hmem
    contradiction

/-- Of three identifiers two need each other, unless one of these has a value. -/
theorem checkAcyclic_exact_of_loop :
    let orders : Table Order := Table.ofList [("a", [.text "[b]+1"]), ("b", [.text "[a]*2"]),
      ("c", [.text "[b]-1"])]
    (∃ cycles, checkAcyclic id orders (fun _ => false) = .error cycles ∧
      ∃ listed ∈ cycles, DependencyGraph.SameCycle listed ["b", "a", "b"]) ∧
    ∃ names, checkAcyclic id orders (· == "a") = .ok names ∧ names.Perm ["a", "b", "c"] ∧
      names.idxOf "b" < names.idxOf "c" := by
  intro orders
  constructor
  · have hcycle : ((DependencyGraph.ofOrders id orders).cutKnown fun _ => false).IsCycle
        ["b", "a", "b"] :=
      ⟨rfl, by decide, by decide,
        .cons_cons (by decide +kernel) (.cons_cons (by decide +kernel) (.singleton _))⟩
    obtain ⟨hdecides, -, hreports⟩ := checkAcyclic_exact id orders fun _ => false
    cases hcheck : checkAcyclic id orders fun _ => false with
    | ok names => exact absurd ⟨_, hcycle⟩ (hdecides.1 ⟨names, hcheck⟩)
    | error cycles =>
      obtain ⟨listed, ⟨hmem, hsame⟩, -⟩ := (hreports cycles hcheck).2.2 _ hcycle
      exact ⟨cycles, rfl, listed, hmem, hsame⟩
  · have hsome : (checkAcyclic id orders (· == "a")).toOption.isSome = true := by decide +kernel
    cases hcheck : checkAcyclic id orders (· == "a") with
    | error cycles =>
      rw [hcheck] at hsome
      contradiction
    | ok names =>
      obtain ⟨hperm, hbefore⟩ := (checkAcyclic_exact id orders (· == "a")).2.1 names hcheck
      exact ⟨names, rfl, hperm, hbefore "c" (by decide) "b" (by decide) (by decide +kernel)⟩

end FormulaGraph
