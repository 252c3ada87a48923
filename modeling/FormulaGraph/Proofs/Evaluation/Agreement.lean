import Mathlib.Data.Set.Basic
import FormulaGraph.Proofs.Evaluation.Growth

/-! Two histories never give an identifier two values: on identifiers whose orders mention only
identifiers of the same set, a value depends on nothing but the values and orders there. -/
namespace FormulaGraph

/-- A set of identifiers that the orders of its members do not lead out of. -/
def Table.ClosedUnder (orders : Table Order) (extend : String → String) (C : Set String) : Prop :=
  ∀ key ∈ C, ∀ rules, orders.get? key = some rules →
    ∀ rule ∈ rules, ∀ ref ∈ Rule.references rule, extend ref ∈ C

theorem Table.closedUnder_univ (orders : Table Order) (extend : String → String) :
    orders.ClosedUnder extend Set.univ := fun _ _ _ _ _ _ _ _ => Set.mem_univ _

namespace Grows

variable {extend : String → String} {orders orders' : Table Order} {busy busy' : List String}
  {t t' u u' : Table Value}

theorem congr_orders (ho : ∀ key, orders.get? key = orders'.get? key)
    (h : Grows extend orders busy t u) : Grows extend orders' busy t u := by
  induction h with
  | refl => exact .refl
  | store _ hb hk hrules hv ih => exact ih.store hb hk (ho _ ▸ hrules) hv

/-- Two histories agree where the second one begins with the values that the first began with, and
with others only that the first has found. -/
theorem get?_unique_of_found {C : Set String} (hC : orders.ClosedUnder extend C)
    (ho : ∀ key ∈ C, orders.get? key = orders'.get? key)
    (ht : ∀ key ∈ C, ∀ v, t.get? key = some v → t'.get? key = some v)
    (hfound : ∀ key ∈ C, ∀ v w, u.get? key = some v → t'.get? key = some w → v = w)
    (h : Grows extend orders busy t u) (h' : Grows extend orders' busy' t' u') :
    ∀ key ∈ C, ∀ v w, u.get? key = some v → u'.get? key = some w → v = w := by
  induction h with
  | refl =>
    intro key hkey v w hv hw
    have hmono := h'.get?_mono (ht key hkey v hv)
    exact Option.some.inj (hmono.symm.trans hw)
  | @store u name rules x hgrow hb hn hrules hx ih =>
    have hbefore : ∀ key ∈ C, ∀ v w, u.get? key = some v → t'.get? key = some w → v = w :=
      fun key hkey v w hv => hfound key hkey v w (Table.get?_insert_of_new hn hv)
    intro key hkey v w hv hw
    cases hbegun : t'.get? key with
    | some y =>
      obtain rfl := Option.some.inj ((h'.get?_mono hbegun).symm.trans hw)
      exact hfound key hkey v y hv hbegun
    | none =>
      rw [Table.get?_insert] at hv
      split at hv
      · -- the other history has evaluated the same order, on values that agree so far
        rename_i heq
        subst heq
        obtain rfl := Option.some.inj hv
        obtain ⟨-, rules', hrules', hw'⟩ := h'.solved hw hbegun
        obtain rfl : rules = rules' := by
          rw [ho key hkey, hrules'] at hrules
          exact (Option.some.inj hrules).symm
        exact Order.value?_unique hx hw' fun rule hrule ref href a b ha hb =>
          ih hbefore _ (hC key hkey rules (ho key hkey ▸ hrules') rule hrule ref href) a b ha hb
      · exact ih hbefore key hkey v w hv hw

theorem get?_unique {C : Set String} (hC : orders.ClosedUnder extend C)
    (ho : ∀ key ∈ C, orders.get? key = orders'.get? key)
    (ht : ∀ key ∈ C, t.get? key = t'.get? key)
    (h : Grows extend orders busy t u) (h' : Grows extend orders' busy' t' u') :
    ∀ key ∈ C, ∀ v w, u.get? key = some v → u'.get? key = some w → v = w := by
  refine get?_unique_of_found hC ho (fun key hkey v hv => ht key hkey ▸ hv) ?_ h h'
  intro key hkey v w hv hw
  rw [h.get?_mono ((ht key hkey).trans hw)] at hv
  exact (Option.some.inj hv).symm

end Grows

/-- What can be asked of a session. -/
inductive Session.Call where
  | resolve (identifier : String)
  | execute (rules : Order) (owner : Option String)

namespace Session

def perform (s : Session) : Call → Session
  | .resolve identifier => (s.resolve identifier).2
  | .execute rules owner => (s.execute rules owner).2

def after (s : Session) (calls : List Call) : Session := calls.foldl perform s

theorem growsTo_perform {s : Session} (hs : s.Unsettled) (call : Call) :
    s.GrowsTo (s.perform call) := by
  cases call with
  | resolve identifier => exact growsTo_resolve hs identifier
  | execute rules owner => exact growsTo_execute hs rules owner

theorem growsTo_after {s : Session} (hs : s.Unsettled) (calls : List Call) :
    s.GrowsTo (s.after calls) := by
  induction calls generalizing s with
  | nil => exact .refl s
  | cons call rest ih =>
    have h := growsTo_perform hs call
    exact h.trans (ih (h.unsettled hs))

end Session
end FormulaGraph
