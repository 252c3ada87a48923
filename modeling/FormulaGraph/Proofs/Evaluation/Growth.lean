import FormulaGraph.Proofs.Evaluation.Induction

/-! What evaluations add to a table. Values are added one at a time, each for an identifier that
had none and is not under evaluation, and each is the value that its order has when it is read off
the table at that moment. This holds of evaluations that break off as well. -/
namespace FormulaGraph

/-- What identifiers read from a table, where `extend` gives their full form. -/
def Table.reader (extend : String → String) (t : Table Value) (ref : String) : Option Value :=
  t.get? (extend ref)

/-- The table has come from `t` by adding values of orders, none of a `busy` identifier. -/
inductive Grows (extend : String → String) (orders : Table Order) (busy : List String)
    (t : Table Value) : Table Value → Prop where
  | refl : Grows extend orders busy t t
  | store {u key rules v} : Grows extend orders busy t u → key ∉ busy → u.get? key = none →
      orders.get? key = some rules → rules.value? (u.reader extend) = some v →
      Grows extend orders busy t (u.insert key v)

variable {extend : String → String} {orders : Table Order} {busy : List String}
  {t u w : Table Value}

namespace Grows

theorem trans (h : Grows extend orders busy t u) (h' : Grows extend orders busy u w) :
    Grows extend orders busy t w := by
  induction h' with
  | refl => exact h
  | store _ hb hk ho hv ih => exact ih.store hb hk ho hv

theorem of_subset {busy' : List String} (h : Grows extend orders busy' t u)
    (hsub : busy ⊆ busy') : Grows extend orders busy t u := by
  induction h with
  | refl => exact .refl
  | store _ hb hk ho hv ih => exact ih.store (fun hmem => hb (hsub hmem)) hk ho hv

theorem get?_mono (h : Grows extend orders busy t u) {key : String} {v : Value}
    (hv : t.get? key = some v) : u.get? key = some v := by
  induction h with
  | refl => exact hv
  | store _ _ hk _ _ ih => exact Table.get?_insert_of_new hk ih

theorem subset (h : Grows extend orders busy t u) : t ⊆ u := fun _ _ => h.get?_mono

theorem get?_of_none (h : Grows extend orders busy t u) {key : String}
    (hu : u.get? key = none) : t.get? key = none :=
  Table.get?_eq_none_of_subset h.subset hu

theorem value?_mono (h : Grows extend orders busy t u) {rules : Order} {v : Value}
    (hv : rules.value? (t.reader extend) = some v) : rules.value? (u.reader extend) = some v :=
  Order.value?_mono hv fun _ _ _ _ _ hx => h.get?_mono hx

/-- A value was there from the start, or it is the one that the order of its identifier has. -/
theorem solved (h : Grows extend orders busy t u) {key : String} {v : Value}
    (hv : u.get? key = some v) (ht : t.get? key = none) : key ∉ busy ∧
      ∃ rules, orders.get? key = some rules ∧ rules.value? (u.reader extend) = some v := by
  induction h with
  | refl => simp [ht] at hv
  | @store u name rules w hgrow hb hk ho hw ih =>
    have hmono : ∀ {rules' x}, Order.value? (u.reader extend) rules' = some x →
        Order.value? ((u.insert name w).reader extend) rules' = some x := fun hx =>
      value?_mono (.store (.refl : Grows extend orders busy u u) hb hk ho hw) hx
    rw [Table.get?_insert] at hv
    split at hv
    · rename_i heq
      subst heq
      obtain rfl := Option.some.inj hv
      exact ⟨hb, rules, ho, hmono hw⟩
    · obtain ⟨hbusy, rules', ho', hx⟩ := ih hv
      exact ⟨hbusy, rules', ho', hmono hx⟩

theorem mem_keys (h : Grows extend orders busy t u) {key : String} (hkey : key ∈ u.keys) :
    key ∈ t.keys ∨ key ∈ orders.keys := by
  obtain ⟨v, hv⟩ := Table.mem_keys_iff.1 hkey
  cases ht : t.get? key with
  | some x => exact Or.inl (Table.mem_keys_iff.2 ⟨x, ht⟩)
  | none =>
    obtain ⟨-, rules, ho, -⟩ := h.solved hv ht
    exact Or.inr (Table.mem_keys_iff.2 ⟨rules, ho⟩)

/-- Values come after those that their orders mention. -/
theorem idxOf_lt (h : Grows extend orders busy t u) {key : String} (hkey : key ∈ u.keys)
    (ht : t.get? key = none) {rules : Order} (ho : orders.get? key = some rules) {rule : Value}
    (hrule : rule ∈ rules) {ref : String} (href : ref ∈ Rule.references rule) :
    u.keys.idxOf (extend ref) < u.keys.idxOf key := by
  induction h with
  | refl => exact absurd hkey (Table.get?_eq_none_iff.1 ht)
  | @store u name rules' v hgrow hb hk hname hv ih =>
    have hnew := Table.get?_eq_none_iff.1 hk
    rw [Table.keys_insert_of_notMem v hnew] at hkey ⊢
    by_cases hold : key ∈ u.keys
    · have hlt := ih hold
      have hmem := List.idxOf_lt_length_iff.1
        (Nat.lt_trans hlt (List.idxOf_lt_length_iff.2 hold))
      rwa [List.idxOf_append_of_mem hmem, List.idxOf_append_of_mem hold]
    · obtain rfl : key = name := by simpa [hold] using hkey
      obtain rfl : rules' = rules := Option.some.inj (hname.symm.trans ho)
      obtain ⟨x, hx⟩ := (Order.read_of_value? hv rule hrule).2 ref href
      have hmem : extend ref ∈ u.keys := Table.mem_keys_iff.2 ⟨x, hx⟩
      have hlt := List.idxOf_lt_length_iff.2 hmem
      rw [List.idxOf_append_of_mem hmem, List.idxOf_append_of_notMem hold]
      omega

end Grows

/-- What the table has beyond `t` can be written. -/
def Table.WritableBeyond (u t : Table Value) : Prop :=
  ∀ key v, u.get? key = some v → t.get? key = some v ∨ v.isWritable = true

namespace Table.WritableBeyond

theorem refl (t : Table Value) : t.WritableBeyond t := fun _ _ => Or.inl

theorem trans (h : w.WritableBeyond u) (h' : u.WritableBeyond t) : w.WritableBeyond t :=
  fun key v hv => (h key v hv).elim (h' key v) Or.inr

theorem insert (h : u.WritableBeyond t) {v : Value} (hv : v.isWritable = true) (key : String) :
    (u.insert key v).WritableBeyond t := by
  intro k x hx
  rw [Table.get?_insert] at hx
  split at hx
  · obtain rfl := Option.some.inj hx
    exact Or.inr hv
  · exact h k x hx

end Table.WritableBeyond

namespace Session

/-- A session that an evaluation from `s` leads to. -/
structure GrowsTo (s t : Session) : Prop where
  namespaces : t.namespaces = s.namespaces
  orders : t.orders = s.orders
  inProgress : t.inProgress = s.inProgress
  values : Grows s.namespaces.extend s.orders s.inProgress s.values t.values

def Unsettled (s : Session) : Prop := ∀ key ∈ s.inProgress, s.values.get? key = none

theorem GrowsTo.trans {s t u : Session} (h : s.GrowsTo t) (h' : t.GrowsTo u) : s.GrowsTo u where
  namespaces := h'.namespaces.trans h.namespaces
  orders := h'.orders.trans h.orders
  inProgress := h'.inProgress.trans h.inProgress
  values := by
    have hv := h'.values
    rw [h.namespaces, h.orders, h.inProgress] at hv
    exact h.values.trans hv

theorem GrowsTo.refl (s : Session) : s.GrowsTo s := ⟨rfl, rfl, rfl, .refl⟩

theorem GrowsTo.get?_mono {s t : Session} (h : s.GrowsTo t) {key : String} {v : Value}
    (hv : s.values.get? key = some v) : t.values.get? key = some v :=
  h.values.get?_mono hv

theorem GrowsTo.mem_keys_mono {s t : Session} (h : s.GrowsTo t) {key : String}
    (hkey : key ∈ s.values.keys) : key ∈ t.values.keys :=
  Table.mem_keys_of_subset h.values.subset hkey

theorem GrowsTo.known_mono {s t : Session} (h : s.GrowsTo t) {ref : String} {v : Value}
    (hv : s.known ref = some v) : t.known ref = some v := by
  unfold known at hv ⊢
  rw [h.namespaces]
  exact h.values.get?_mono hv

theorem GrowsTo.unsettled {s t : Session} (h : s.GrowsTo t) (hs : s.Unsettled) : t.Unsettled := by
  intro key hkey
  rw [h.inProgress] at hkey
  cases ht : t.values.get? key with
  | none => rfl
  | some v => exact absurd hkey (h.values.solved ht (hs key hkey)).1

theorem Unsettled.enter {s : Session} (hs : s.Unsettled) {ref : String} {rules : Order}
    (h : s.Opens ref rules) : (s.enter (s.namespaces.extend ref)).Unsettled := by
  intro key hkey
  rcases List.mem_append.1 hkey with hkey | hkey
  · exact hs key hkey
  · rw [List.mem_singleton.1 hkey]
    exact h.unknown

theorem GrowsTo.pop {s t : Session} {key : String} (h : (s.enter key).GrowsTo t) :
    s.GrowsTo t.pop where
  namespaces := h.namespaces
  orders := h.orders
  inProgress := by
    change t.inProgress.dropLast = _
    rw [h.inProgress]
    exact List.dropLast_concat
  values := h.values.of_subset (List.subset_append_left _ _)

/-- Nothing stores a value for an identifier while it is on the stack. -/
theorem GrowsTo.get?_entered {s t : Session} {ref : String} {rules : Order} (hs : s.Unsettled)
    (ho : s.Opens ref rules) (h : (s.enter (s.namespaces.extend ref)).GrowsTo t) :
    t.values.get? (s.namespaces.extend ref) = none :=
  h.unsettled (hs.enter ho) _ (by rw [h.inProgress]; exact List.mem_append_right _ (by simp))

theorem GrowsTo.leave {s t : Session} {ref : String} {rules : Order} {v : Value}
    (hs : s.Unsettled) (ho : s.Opens ref rules)
    (h : (s.enter (s.namespaces.extend ref)).GrowsTo t) (hv : rules.value? t.known = some v) :
    s.GrowsTo (t.leave (s.namespaces.extend ref) v) where
  namespaces := h.pop.namespaces
  orders := h.pop.orders
  inProgress := h.pop.inProgress
  values := by
    have hread : t.known = t.values.reader s.namespaces.extend := by
      funext name
      rw [known, h.namespaces]
      rfl
    have hnone := GrowsTo.get?_entered hs ho h
    exact h.pop.values.store ho.idle hnone ho.order (hread ▸ hv)

/-- A session that an evaluation from `s` ends in when it does not break off. -/
structure CompletesTo (s t : Session) : Prop extends s.GrowsTo t where
  writable : t.values.WritableBeyond s.values

theorem CompletesTo.refl (s : Session) : s.CompletesTo s := ⟨.refl s, .refl s.values⟩

theorem CompletesTo.trans {s t u : Session} (h : s.CompletesTo t) (h' : t.CompletesTo u) :
    s.CompletesTo u :=
  ⟨h.toGrowsTo.trans h'.toGrowsTo, h'.writable.trans h.writable⟩

theorem CompletesTo.leave {s t : Session} {ref : String} {rules : Order} {v : Value}
    (hs : s.Unsettled) (ho : s.Opens ref rules)
    (h : (s.enter (s.namespaces.extend ref)).CompletesTo t) (hv : rules.value? t.known = some v)
    (hw : v.isWritable = true) : s.CompletesTo (t.leave (s.namespaces.extend ref) v) :=
  ⟨h.toGrowsTo.leave hs ho hv, Table.WritableBeyond.insert h.writable hw _⟩

end Session

namespace Evaluation

/-- Evaluations only add values, whether they end with one or break off; a value that cannot be
written makes them break off. -/
def growth : Protocol where
  keeps := Session.CompletesTo
  breaks _ := Session.GrowsTo
  refl := .refl
  trans := @Session.CompletesTo.trans
  after h := h.toGrowsTo.trans
  namespaces h := h.namespaces
  known h := h.get?_mono
  fault _ _ := .refl
  arithmetic _ := .refl
  ready _ _ s := s.Unsettled
  still hs h := h.unsettled hs
  tooDeep _ := .refl _
  undefined _ _ _ := .refl _
  cyclic _ _ _ _ := .refl _
  enter hs ho _ _ := hs.enter ho
  leave hs ho h hv hw := .leave hs ho h hv hw
  unwritable hs ho h hv _ := .leave hs ho h.toGrowsTo hv
  escape _ _ h := h.pop

end Evaluation

namespace Session

variable {s : Session}

theorem growsTo_resolve (hs : s.Unsettled) (identifier : String) :
    s.GrowsTo (s.resolve identifier).2 := by
  have hready : Evaluation.growth.ready s.depth identifier s := hs
  have h := Evaluation.growth.ensures_resolve hready
  cases hr : s.resolve identifier with
  | mk result t =>
    cases result with
    | ok v => exact Session.CompletesTo.toGrowsTo (h.ok_of_run hr).1
    | error e => exact h.err_of_run hr

theorem growsTo_of_resolve (hs : s.Unsettled) {identifier : String}
    {result : Except EvaluationError Value} {t : Session}
    (hr : s.resolve identifier = (result, t)) : s.GrowsTo t := by
  have h := growsTo_resolve hs identifier
  rwa [hr] at h

theorem completesTo_of_resolve (hs : s.Unsettled) {identifier : String} {v : Value} {t : Session}
    (hr : s.resolve identifier = (.ok v, t)) : s.CompletesTo t := by
  have hready : Evaluation.growth.ready s.depth identifier s := hs
  exact ((Evaluation.growth.ensures_resolve hready).ok_of_run hr).1

theorem known_of_resolve (hs : s.Unsettled) {identifier : String} {v : Value} {t : Session}
    (hr : s.resolve identifier = (.ok v, t)) : t.known identifier = some v := by
  have hready : Evaluation.growth.ready s.depth identifier s := hs
  exact ((Evaluation.growth.ensures_resolve hready).ok_of_run hr).2

theorem ensures_execute_growth (hs : s.Unsettled) (depth : Nat) (rules : Order)
    (owner : Option String) : (Evaluation.execute (Evaluation.resolve depth) rules owner).Ensures s
      (fun v t => s.GrowsTo t ∧ rules.value? t.known = some v) (fun _ t => s.GrowsTo t) := by
  have hcount : ∀ {t}, s.count.GrowsTo t → s.GrowsTo t := fun h =>
    ⟨h.namespaces, h.orders, h.inProgress, h.values⟩
  have hadmits : ∀ ref, rules.Resolves ref → Evaluation.growth.Admits
      (Evaluation.resolve depth) s.count ref := fun ref _ t ht => by
    have hready : Evaluation.growth.ready depth ref t := ht.unsettled hs
    exact Evaluation.growth.ensures_resolve hready
  exact (Evaluation.Frame.ensures_execute rules owner hadmits).imp
    (fun v t h => ⟨hcount (CompletesTo.toGrowsTo h.1), h.2⟩) fun e t h => hcount h

/-- Opening an identifier, executing its order and closing it again completes an evaluation. -/
theorem Opens.ensures_execute (hs : s.Unsettled) {ref : String} {rules : Order}
    (ho : s.Opens ref rules) (depth : Nat) (owner : Option String) :
    (Evaluation.execute (Evaluation.resolve depth) rules owner).Ensures
      (s.push (s.namespaces.extend ref))
      (fun v t => v.isWritable = true → s.CompletesTo (t.leave (s.namespaces.extend ref) v))
      fun _ _ => True := by
  have hready : Evaluation.growth.ready (depth + 1) ref s := hs
  have hadmits : ∀ name, rules.Resolves name → Evaluation.growth.Admits
      (Evaluation.resolve depth) (s.push (s.namespaces.extend ref)).count name :=
    fun name hname t ht => Evaluation.growth.ensures_resolve
      (Evaluation.growth.still (Evaluation.growth.enter hready ho name hname) ht)
  exact (Evaluation.Frame.ensures_execute rules owner hadmits).imp
    (fun v t h hw => .leave hs ho h.1 h.2 hw) fun _ _ _ => trivial

theorem growsTo_execute (hs : s.Unsettled) (rules : Order) (owner : Option String) :
    s.GrowsTo (s.execute rules owner).2 := by
  have h := ensures_execute_growth hs s.depth rules owner
  cases hr : s.execute rules owner with
  | mk result t =>
    cases result with
    | ok v => exact (h.ok_of_run hr).1
    | error e => exact h.err_of_run hr

theorem value?_of_execute (hs : s.Unsettled) {rules : Order} {owner : Option String} {v : Value}
    {t : Session} (hr : s.execute rules owner = (.ok v, t)) : rules.value? t.known = some v :=
  ((ensures_execute_growth hs s.depth rules owner).ok_of_run hr).2

theorem unsettled_new (ns : Namespaces) (orders : Table Order) (values : Table Value) :
    (Session.new ns orders values).Unsettled := by
  simp [Unsettled, Session.new]

end Session
end FormulaGraph
