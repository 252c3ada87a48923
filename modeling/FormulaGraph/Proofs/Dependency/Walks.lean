import Mathlib.Data.Finset.Max
import Mathlib.Data.List.Chain
import Mathlib.Data.List.Cycle
import Mathlib.Data.List.Nodup
import Mathlib.Data.String.Basic
import Mathlib.Logic.Relation
import FormulaGraph.Proofs.Dependency.Edges

/-! Walks along the edges of a dependency graph. Where a walk leads back to its start there is a
cycle that passes no other node twice; it can be written from each of its nodes. -/
namespace FormulaGraph

/-- Where a relation leads from one element to another, it does so without passing one twice. -/
theorem exists_nodup_isChain {α : Type} {r : α → α → Prop} {a b : α}
    (h : Relation.ReflTransGen r a b) :
    ∃ rest, (a :: rest).IsChain r ∧ (a :: rest).Nodup ∧ (a :: rest).getLast? = some b := by
  induction h using Relation.ReflTransGen.head_induction_on with
  | refl => exact ⟨[], .singleton _, List.nodup_singleton _, rfl⟩
  | @head a c hac _ ih =>
    obtain ⟨rest, hwalk, hnodup, hlast⟩ := ih
    by_cases ha : a ∈ c :: rest
    · -- the walk from `c` comes back to `a`, so that what follows is enough
      obtain ⟨before, after, heq⟩ := List.append_of_mem ha
      rw [heq] at hwalk hnodup hlast
      refine ⟨after, hwalk.right_of_append, hnodup.of_append_right, ?_⟩
      rwa [List.getLast?_append_of_ne_nil _ (List.cons_ne_nil a after)] at hlast
    · exact ⟨c :: rest, .cons_cons hac hwalk, List.nodup_cons.2 ⟨ha, hnodup⟩,
        by rwa [List.getLast?_cons_cons]⟩

namespace DependencyGraph

variable {g : DependencyGraph} {extend : String → String} {orders : Table Order}
  {known : String → Bool} {source target start node : String} {cycle more : List String}

def Leads (g : DependencyGraph) (source target : String) : Prop := target ∈ g.successors source

instance (g : DependencyGraph) (source target : String) : Decidable (g.Leads source target) :=
  inferInstanceAs (Decidable (_ ∈ _))

theorem leads_iff : g.Leads source target ↔ (source, target) ∈ g.links := by
  simp only [Leads, successors, links, ends, List.mem_map, List.mem_filter, beq_iff_eq,
    Prod.mk.injEq, and_assoc]

theorem leads_ofOrders_iff :
    (ofOrders extend orders).Leads source target ↔ orders.Depends extend source target :=
  leads_iff.trans mem_links_ofOrders

theorem Wellformed.mem_of_leads (h : g.Wellformed) (hl : g.Leads source target) :
    source ∈ g.names ∧ target ∈ g.names :=
  h.mem_names _ (leads_iff.1 hl)

/-- A walk along the edges back to its first node, which passes no node twice. -/
structure IsCycle (g : DependencyGraph) (cycle : List String) : Prop where
  closed : cycle.head? = cycle.getLast?
  long : 2 ≤ cycle.length
  distinct : cycle.dropLast.Nodup
  walk : cycle.IsChain g.Leads

theorem dropLast_closed (start : String) (more : List String) :
    (start :: (more ++ [start])).dropLast = start :: more := by
  rw [← List.cons_append, List.dropLast_concat]

theorem isCycle_closed_iff : g.IsCycle (start :: (more ++ [start])) ↔
    (start :: more).Nodup ∧ (start :: (more ++ [start])).IsChain g.Leads := by
  constructor
  · intro h
    have hdistinct := h.distinct
    rw [dropLast_closed] at hdistinct
    exact ⟨hdistinct, h.walk⟩
  · rintro ⟨hdistinct, hwalk⟩
    refine ⟨?_, by simp, by rwa [dropLast_closed], hwalk⟩
    rw [← List.cons_append, List.getLast?_concat]
    rfl

theorem IsCycle.exists_eq (h : g.IsCycle cycle) :
    ∃ start more, cycle = start :: (more ++ [start]) := by
  obtain ⟨hclosed, hlong, -, -⟩ := h
  match cycle, hlong with
  | start :: next :: rest, _ =>
    rw [List.getLast?_cons_cons] at hclosed
    exact ⟨start, _, congrArg _ (List.dropLast_append_getLast? start hclosed.symm).symm⟩

/-- From each node of a cycle there is a way back to it. -/
theorem IsCycle.transGen (h : g.IsCycle cycle) (hnode : node ∈ cycle) :
    Relation.TransGen g.Leads node node := by
  obtain ⟨start, more, rfl⟩ := h.exists_eq
  have hto : ∀ k ∈ start :: (more ++ [start]), Relation.ReflTransGen g.Leads start k :=
    h.walk.induction _ _ (fun _ _ hxy hx => hx.tail hxy) fun _ => .refl
  have hfrom : ∀ k ∈ start :: (more ++ [start]), Relation.ReflTransGen g.Leads k start :=
    h.walk.backwards_induction _ _ (fun _ _ hxy hy => hy.head hxy) fun _ => by
      simp [Relation.ReflTransGen.refl]
  obtain ⟨next, rest, hnext⟩ := List.exists_cons_of_ne_nil (l := more ++ [start]) (by simp)
  have hwalk := h.walk
  rw [hnext] at hwalk
  have hround : Relation.TransGen g.Leads start start :=
    .head' (List.isChain_cons_cons.1 hwalk).1 (hfrom next (by simp [hnext]))
  exact (hround.trans_right (hfrom node hnode)).trans_left (hto node hnode)

theorem exists_isCycle (h : Relation.TransGen g.Leads start start) :
    ∃ more, g.IsCycle (start :: (more ++ [start])) := by
  obtain ⟨next, hleads, hback⟩ := Relation.TransGen.head'_iff.1 h
  obtain ⟨rest, hwalk, hnodup, hlast⟩ := exists_nodup_isChain hback
  obtain ⟨more, hmore⟩ : ∃ more, next :: rest = more ++ [start] :=
    ⟨_, (List.dropLast_append_getLast? start hlast).symm⟩
  rw [hmore] at hwalk hnodup
  refine ⟨more, isCycle_closed_iff.2 ⟨?_, ?_⟩⟩
  · exact List.nodup_cons.2 ⟨fun hmem => List.disjoint_of_nodup_append hnodup hmem (by simp),
      hnodup.of_append_left⟩
  · rw [← hmore] at hwalk ⊢
    exact .cons_cons hleads hwalk

/-- Whether two cycles are one, written from any of its nodes. -/
def SameCycle (cycle other : List String) : Prop := cycle.dropLast.IsRotated other.dropLast

theorem isCycle_closed_iff_chain : g.IsCycle (start :: (more ++ [start])) ↔
    (start :: more).Nodup ∧ Cycle.Chain g.Leads (start :: more : List String) := by
  rw [isCycle_closed_iff, Cycle.chain_coe_cons]

/-- No node of a cycle comes before its first one. -/
def StartsLeast (cycle : List String) : Prop :=
  ∀ first ∈ cycle.head?, ∀ node ∈ cycle, first ≤ node

/-- A cycle can be written from its least node. -/
theorem IsCycle.exists_startsLeast (h : g.IsCycle cycle) :
    ∃ least, g.IsCycle least ∧ StartsLeast least ∧ SameCycle least cycle := by
  obtain ⟨start, more, rfl⟩ := h.exists_eq
  obtain ⟨hdistinct, hchain⟩ := isCycle_closed_iff_chain.1 h
  obtain ⟨first, hfirst, hleast⟩ := Finset.exists_min_image (start :: more).toFinset id
    ⟨start, by simp⟩
  obtain ⟨before, after, heq⟩ := List.append_of_mem (List.mem_toFinset.1 hfirst)
  have hrotated : (first :: (after ++ before)).IsRotated (start :: more) := by
    rw [heq, ← List.cons_append]
    exact List.isRotated_append
  refine ⟨first :: ((after ++ before) ++ [first]), isCycle_closed_iff_chain.2 ⟨?_, ?_⟩, ?_, ?_⟩
  · exact hrotated.nodup_iff.2 hdistinct
  · rwa [Cycle.coe_eq_coe.2 hrotated]
  · rintro _ ⟨⟩ node hnode
    have hmem : node ∈ first :: (after ++ before) := by
      simp only [List.mem_cons, List.mem_append, List.not_mem_nil, or_false] at hnode ⊢
      tauto
    exact hleast node (List.mem_toFinset.2 (hrotated.mem_iff.1 hmem))
  · rw [SameCycle, dropLast_closed, dropLast_closed]
    exact hrotated

/-- A list without repetitions is rotated to none other with its first element. -/
theorem eq_of_isRotated_cons {first : String} {xs ys : List String} (hn : (first :: xs).Nodup)
    (h : (first :: xs).IsRotated (first :: ys)) : xs = ys := by
  obtain ⟨n, hn'⟩ := h
  have hlt : n % (first :: xs).length < (first :: xs).length := Nat.mod_lt _ (by simp)
  rw [← List.rotate_mod] at hn'
  have hhead := List.head?_rotate hlt
  rw [hn', List.head?_cons] at hhead
  have hzero : n % (first :: xs).length = 0 := by
    rw [eq_comm, List.getElem?_eq_getElem hlt, Option.some.injEq] at hhead
    have hfirst : (first :: xs)[n % (first :: xs).length] = (first :: xs)[0] := hhead
    exact hn.getElem_inj_iff.1 hfirst
  rw [hzero, List.rotate_zero] at hn'
  exact (List.cons.inj hn').2

theorem IsCycle.eq_of_sameCycle {other : List String} (h : g.IsCycle cycle) (h' : g.IsCycle other)
    (hleast : StartsLeast cycle) (hleast' : StartsLeast other) (hsame : SameCycle cycle other) :
    cycle = other := by
  obtain ⟨start, more, rfl⟩ := h.exists_eq
  obtain ⟨start', more', rfl⟩ := h'.exists_eq
  rw [SameCycle, dropLast_closed, dropLast_closed] at hsame
  have hmem : start' ∈ start :: more := hsame.mem_iff.2 List.mem_cons_self
  have hmem' : start ∈ start' :: more' := hsame.mem_iff.1 List.mem_cons_self
  have hle : start ≤ start' := hleast start rfl start' (by simp at hmem ⊢; tauto)
  have hle' : start' ≤ start := hleast' start' rfl start (by simp at hmem' ⊢; tauto)
  obtain rfl := le_antisymm hle hle'
  rw [eq_of_isRotated_cons (isCycle_closed_iff.1 h).1 hsame]

end DependencyGraph
end FormulaGraph
