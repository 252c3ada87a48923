import FormulaGraph.Proofs.Computation.Solution
import FormulaGraph.Proofs.Evaluation.Depth

/-! Evaluation is confluent: values do not depend on the order in which identifiers are evaluated,
and where steps look up only what was supplied, neither does it matter for success. -/
namespace FormulaGraph

namespace Table

variable {α : Type} {f : String → String} {t u : Table α}

/-- Whether two tables have the same entry for the last of the names that `f` makes one. -/
def EndsAlike (f : String → String) (t u : Table α) : Prop :=
  ∀ key, ((t.entries.filter (f ·.1 = key)).getLast?).map Prod.snd =
    ((u.entries.filter (f ·.1 = key)).getLast?).map Prod.snd

theorem EndsAlike.get?_mapKeys (h : t.EndsAlike f u) (key : String) :
    (t.mapKeys f).get? key = (u.mapKeys f).get? key := by
  rw [Table.get?_mapKeys, Table.get?_mapKeys, h key]

/-- Entries may be listed in any order if those are equal whose names `f` makes one. -/
theorem endsAlike_of_perm (hp : t.entries.Perm u.entries)
    (h : ∀ p ∈ t.entries, ∀ q ∈ t.entries, f p.1 = f q.1 → p.2 = q.2) : t.EndsAlike f u := by
  intro key
  have hfiltered := hp.filter (f ·.1 = key)
  cases hlast : (t.entries.filter (f ·.1 = key)).getLast? with
  | none =>
    rw [List.getLast?_eq_none_iff.1 hlast] at hfiltered
    rw [← hfiltered.nil_eq]
    rfl
  | some p =>
    obtain ⟨hp', hpkey⟩ := List.mem_filter.1 (List.mem_of_getLast? hlast)
    cases hother : (u.entries.filter (f ·.1 = key)).getLast? with
    | none =>
      rw [List.getLast?_eq_none_iff.1 hother] at hfiltered
      rw [hfiltered.eq_nil] at hlast
      contradiction
    | some q =>
      have hmem := hfiltered.mem_iff.2 (List.mem_of_getLast? hother)
      obtain ⟨hq, hqkey⟩ := List.mem_filter.1 hmem
      have hnames : f p.1 = f q.1 := (of_decide_eq_true hpkey).trans (of_decide_eq_true hqkey).symm
      exact congrArg some (h p hp' q hq hnames)

theorem snd_eq_of_mem {p q : String × α} (hp : p ∈ t.entries) (hq : q ∈ t.entries)
    (h : p.1 = q.1) : p.2 = q.2 := by
  have hget : t.get? p.1 = some p.2 := get?_eq_some_iff.2 hp
  rw [h, get?_eq_some_iff.2 hq] at hget
  exact (Option.some.inj hget).symm

end Table

namespace Engine

variable {ns : Namespaces} {orders orders' : Table Order} {supplied values values' : Table Value}

theorem get?_evaluateOrders_unique (hkeys : orders.keys.Perm orders'.keys)
    (ho : ∀ key, (orders.mapKeys ns.extend).get? key = (orders'.mapKeys ns.extend).get? key)
    (h : evaluateOrders ns orders supplied = .ok values)
    (h' : evaluateOrders ns orders' supplied = .ok values') (key : String) :
    values.get? key = values'.get? key := by
  obtain ⟨t, hst, ht⟩ := evaluated_of_evaluateAll (Session.unsettled_new _ _ _) h
  obtain ⟨t', hst', ht'⟩ := evaluated_of_evaluateAll (Session.unsettled_new _ _ _) h'
  rw [ht.get? key, ht'.get? key]
  cases hv : supplied.get? key with
  | some v => rfl
  | none =>
    by_cases hmem : key ∈ orders.keys
    · have hmem' : key ∈ orders'.keys := hkeys.mem_iff.1 hmem
      obtain ⟨v, hv⟩ := ht.known key hmem hv
      obtain ⟨w, hw⟩ := ht'.known key hmem' ‹_›
      have hvw : v = w := by
        unfold Session.known at hv hw
        rw [hst.namespaces] at hv
        rw [hst'.namespaces] at hw
        exact Grows.get?_unique (Table.closedUnder_univ _ _) (fun key _ => ho key)
          (fun _ _ => rfl) hst.values hst'.values _ (Set.mem_univ _) v w hv hw
      simp [hmem, hmem', hv, hw, hvw]
    · have hmem' : key ∉ orders'.keys := fun hm => hmem (hkeys.mem_iff.2 hm)
      simp [hmem, hmem']

theorem evaluateOrders_ok_of_perm (hkeys : orders.keys.Perm orders'.keys)
    (ho : ∀ key, (orders.mapKeys ns.extend).get? key = (orders'.mapKeys ns.extend).get? key)
    (hlook : (orders'.mapKeys ns.extend).LooksUpSupplied ns.extend (supplied.mapKeys ns.extend))
    (h : evaluateOrders ns orders supplied = .ok values) :
    ∃ values', evaluateOrders ns orders' supplied = .ok values' := by
  cases h' : evaluateOrders ns orders' supplied with
  | ok values' => exact ⟨values', rfl⟩
  | error e =>
    exfalso
    obtain ⟨t, hst, ht⟩ := evaluated_of_evaluateAll (Session.unsettled_new _ _ _) h
    obtain ⟨uri, huri, hnone, s, hs, s', hfail⟩ :=
      resolve_of_evaluateAll_error (Session.unsettled_new _ _ _) h'
    -- the first run has found the identifier that the second one fails to resolve
    obtain ⟨v, hv⟩ := ht.known uri (hkeys.mem_iff.2 huri) hnone
    have hgrow : Grows ns.extend (orders'.mapKeys ns.extend) [] (supplied.mapKeys ns.extend)
        t.values := hst.values.congr_orders ho
    have hmem : ns.extend uri ∈ t.values.keys := by
      rw [Session.known, hst.namespaces] at hv
      exact Table.mem_keys_iff.2 ⟨v, hv⟩
    have hgrown : s.GrownFrom ns.extend (orders'.mapKeys ns.extend)
        (supplied.mapKeys ns.extend) := {
      extend_eq := by rw [hs.namespaces]; rfl
      get?_orders := fun key => by rw [hs.orders]; rfl
      values := hs.values
      unsettled := hs.unsettled (Session.unsettled_new _ _ _) }
    have hempty : s.inProgress = [] := hs.inProgress
    have hidle : ∀ key ∈ s.inProgress, key ∉ t.values.keys := by simp [hempty]
    have hresumes : (supplied.mapKeys ns.extend).Resumes ns.extend (orders'.mapKeys ns.extend)
        (supplied.mapKeys ns.extend) t.values := {
      grows := hgrow
      subset := fun _ _ => id
      found := fun key v w hv hw => by
        rw [hgrow.get?_mono hw] at hv
        exact (Option.some.inj hv).symm
      writable := hst.writable }
    have hmisses := (hresumes.ensures_resolve s.depth hgrown hidle hmem).err_of_run hfail
    have hdeep : e ≠ .tooDeep := fun he => Session.resolve_ne_tooDeep hempty (he ▸ hfail)
    exact hlook.not_isPremature (fun _ hkey => hkey.2) (hmisses hdeep)

/-- What two runs of the loop have in common: if both end, it is with the same values, and where steps
look up no identifier that is yet to be evaluated, both end or neither does. -/
structure RunAlike (ns : Namespaces) (orders orders' : Table Order) (supplied : Table Value) :
    Prop where
  values : ∀ values values', evaluateOrders ns orders supplied = .ok values →
    evaluateOrders ns orders' supplied = .ok values' → ∀ key, values.get? key = values'.get? key
  completes : (orders.mapKeys ns.extend).LooksUpSupplied ns.extend (supplied.mapKeys ns.extend) →
    ((∃ values, evaluateOrders ns orders supplied = .ok values) ↔
      ∃ values', evaluateOrders ns orders' supplied = .ok values')

theorem runAlike_of_perm (supplied : Table Value) (hp : orders.entries.Perm orders'.entries)
    (hends : orders.EndsAlike ns.extend orders') : RunAlike ns orders orders' supplied := by
  have hkeys : orders.keys.Perm orders'.keys := hp.map Prod.fst
  have ho := hends.get?_mapKeys
  refine ⟨fun values values' h h' key => get?_evaluateOrders_unique hkeys ho h h' key, ?_⟩
  intro hlook
  constructor
  · rintro ⟨values, h⟩
    exact evaluateOrders_ok_of_perm hkeys ho (hlook.congr_orders ho) h
  · rintro ⟨values', h'⟩
    exact evaluateOrders_ok_of_perm hkeys.symm (fun key => (ho key).symm) hlook h'

end Engine

/-- Sessions that read identifiers alike and hold the same orders and values for those of `C`, which
the orders of its members do not lead out of. -/
structure Session.AgreeOn (C : Set String) (s s' : Session) : Prop where
  extend_eq : s.namespaces.extend = s'.namespaces.extend
  closed : s.orders.ClosedUnder s.namespaces.extend C
  orders : ∀ key ∈ C, s.orders.get? key = s'.orders.get? key
  values : ∀ key ∈ C, s.values.get? key = s'.values.get? key

theorem Session.AgreeOn.get?_after {C : Set String} {s s' : Session} (h : s.AgreeOn C s')
    (hs : s.Unsettled) (hs' : s'.Unsettled) (calls calls' : List Call) {key : String}
    (hkey : key ∈ C) {v w : Value} (hv : (s.after calls).values.get? key = some v)
    (hw : (s'.after calls').values.get? key = some w) : v = w := by
  have hgrow := (growsTo_after hs calls).values
  have hgrow' := (growsTo_after hs' calls').values
  rw [← h.extend_eq] at hgrow'
  exact Grows.get?_unique h.closed h.orders h.values hgrow hgrow' key hkey v w hv hw

/-- **Confluence.** Whatever has been asked of two sessions, identifiers have the same values in
both where the sessions began alike. The loop over the orders runs alike for every order of the orders
that leaves the same rules for the last identifier of each full form; any does where identifiers with
one full form have the same rules, and those of a computation have. -/
theorem evaluation_confluent :
    (∀ (C : Set String) (ns ns' : Namespaces) (orders orders' : Table Order)
      (values values' : Table Value),
      (Session.new ns orders values).AgreeOn C (Session.new ns' orders' values') →
      ∀ (calls calls' : List Session.Call), ∀ key ∈ C, ∀ v w,
        ((Session.new ns orders values).after calls).values.get? key = some v →
        ((Session.new ns' orders' values').after calls').values.get? key = some w → v = w) ∧
    (∀ (ns : Namespaces) (orders orders' : Table Order) (supplied : Table Value),
      orders.entries.Perm orders'.entries → orders.EndsAlike ns.extend orders' →
      Engine.RunAlike ns orders orders' supplied) ∧
    (∀ (ns : Namespaces) (orders orders' : Table Order) (supplied : Table Value),
      orders.entries.Perm orders'.entries →
      (∀ p ∈ orders.entries, ∀ q ∈ orders.entries, ns.extend p.1 = ns.extend q.1 → p.2 = q.2) →
      Engine.RunAlike ns orders orders' supplied) ∧
    ∀ (e : Engine) (orders orders' : Table Order), e.prepare = .ok orders →
      orders.entries.Perm orders'.entries →
      Engine.RunAlike e.namespaces orders orders' e.supplied := by
  have hsame : ∀ (ns : Namespaces) (orders orders' : Table Order) (supplied : Table Value),
      orders.entries.Perm orders'.entries →
      (∀ p ∈ orders.entries, ∀ q ∈ orders.entries, ns.extend p.1 = ns.extend q.1 → p.2 = q.2) →
      Engine.RunAlike ns orders orders' supplied := fun _ _ _ supplied hp h =>
    Engine.runAlike_of_perm supplied hp (Table.endsAlike_of_perm hp h)
  refine ⟨?_, fun _ _ _ => Engine.runAlike_of_perm, hsame, ?_⟩
  · intro C ns ns' orders orders' values values' hagree calls calls' key hkey v w hv hw
    exact hagree.get?_after (Session.unsettled_new _ _ _) (Session.unsettled_new _ _ _) calls calls'
      hkey hv hw
  · intro e orders orders' hprepare hp
    refine hsame _ _ _ _ hp fun p hpmem q hqmem hfull => ?_
    exact Engine.rules_eq_of_prepare hprepare (Table.get?_eq_some_iff.2 hpmem)
      (Table.get?_eq_some_iff.2 hqmem) hfull

/-- Two sessions that differ in the order of `c`, asked for `b` on different ways, two loops that meet
`b` before and after the order that needs it, and all orders of the orders of a computation. -/
theorem evaluation_confluent_of_two_orders :
    let ns := Namespaces.standard
    let values : Table Value := Table.ofList [("a", .int 1)]
    let orders : Table Order := Table.ofList [("b", [.text "[a]*2"]), ("c", [.text "[b]+1"])]
    let changed : Table Order := Table.ofList [("c", [.text "*3"]), ("b", [.text "[a]*2"])]
    let swapped : Table Order := Table.ofList [("c", [.text "[b]+1"]), ("b", [.text "[a]*2"])]
    let e := Engine.ofRules ns [("b", "[x]*2"), ("c", "[b]+1")]
    (∃ v, ((Session.new ns orders values).after [.resolve "c"]).values.get? "b" = some v ∧
      ((Session.new ns changed values).after [.resolve "c", .resolve "b"]).values.get? "b" =
        some v) ∧
    (∃ t t', Engine.evaluateOrders ns orders values = .ok t ∧
      Engine.evaluateOrders ns swapped values = .ok t' ∧ ∀ key, t.get? key = t'.get? key) ∧
    ∃ found, e.prepare = .ok found ∧ found.keys = ["b", "c"] ∧
      ∀ other, found.entries.Perm other.entries →
        Engine.RunAlike e.namespaces found other e.supplied := by
  intro ns values orders changed swapped e
  refine ⟨?_, ?_, ?_⟩
  · have hagree : (Session.new ns orders values).AgreeOn {"a", "b"}
        (Session.new ns changed values) :=
      { extend_eq := rfl
        closed := by
          rintro key (rfl | rfl) rules h
          · have hnone : (Session.new ns orders values).orders.get? "a" = none := rfl
            rw [hnone] at h
            contradiction
          · have hrefs : ∀ rule ∈ [Value.text "[a]*2"], ∀ ref ∈ Rule.references rule,
                ns.extend ref = "a" := by decide +kernel
            have hsome : (Session.new ns orders values).orders.get? "b" =
              some [.text "[a]*2"] := rfl
            obtain rfl := Option.some.inj (hsome.symm.trans h)
            exact fun rule hrule ref href => Or.inl (hrefs rule hrule ref href)
        orders := by rintro key (rfl | rfl) <;> rfl
        values := fun _ _ => rfl }
    obtain ⟨v, hv⟩ : ∃ v, ((Session.new ns orders values).after
        [.resolve "c"]).values.get? "b" = some v := Option.isSome_iff_exists.1 (by decide +kernel)
    obtain ⟨w, hw⟩ : ∃ w, ((Session.new ns changed values).after
        [.resolve "c", .resolve "b"]).values.get? "b" = some w :=
      Option.isSome_iff_exists.1 (by decide +kernel)
    obtain rfl := evaluation_confluent.1 _ ns ns orders changed values values hagree
      [.resolve "c"] [.resolve "c", .resolve "b"] "b" (Or.inr rfl) v w hv hw
    exact ⟨v, hv, hw⟩
  · have hapart : ∀ a ∈ orders.keys, ∀ b ∈ orders.keys, ns.extend a = ns.extend b → a = b := by
      decide +kernel
    have halike := evaluation_confluent.2.2.1 ns orders swapped values (List.Perm.swap _ _ _)
      fun p hp q hq hfull => Table.snd_eq_of_mem hp hq
        (hapart p.1 (List.mem_map_of_mem hp) q.1 (List.mem_map_of_mem hq) hfull)
    have hrun : (Engine.evaluateOrders ns orders values).toOption.map (fun _ => ()) = some () := by
      decide +kernel
    obtain ⟨t, ht, -⟩ := exists_ok_of_map hrun
    obtain ⟨t', ht'⟩ := (halike.completes (by decide +kernel)).1 ⟨t, ht⟩
    exact ⟨t, t', ht, ht', halike.values t t' ht ht'⟩
  · have hkeys : e.prepare.toOption.map (·.keys) = some ["b", "c"] := by decide +kernel
    obtain ⟨found, hfound, hnames⟩ := exists_ok_of_map hkeys
    exact ⟨found, hfound, hnames, fun other hp =>
      evaluation_confluent.2.2.2 e found other hfound hp⟩

/-- Of two orders under one identifier in short and in full form, the one that is listed last counts
for both. -/
theorem evaluateOrders_ne_of_perm :
    let values : Table Value := Table.ofList [("x", .int 1)]
    let orders : Table Order :=
      Table.ofList [("kno:a", [.text "[x]+1"]), ("http://knorke/a", [.text "[x]+2"])]
    let swapped : Table Order :=
      Table.ofList [("http://knorke/a", [.text "[x]+2"]), ("kno:a", [.text "[x]+1"])]
    orders.entries.Perm swapped.entries ∧
      ∃ t t', Engine.evaluateOrders .standard orders values = .ok t ∧
        Engine.evaluateOrders .standard swapped values = .ok t' ∧
        (t.get? "kno:a").map Value.literal = some "3.0" ∧
        (t'.get? "kno:a").map Value.literal = some "2.0" := by
  intro values orders swapped
  have hrun : (Engine.evaluateOrders .standard orders values).toOption.map
      (fun t => (t.get? "kno:a").map Value.literal) = some (some "3.0") := by decide +kernel
  have hrun' : (Engine.evaluateOrders .standard swapped values).toOption.map
      (fun t => (t.get? "kno:a").map Value.literal) = some (some "2.0") := by decide +kernel
  obtain ⟨t, ht, hvalue⟩ := exists_ok_of_map hrun
  obtain ⟨t', ht', hvalue'⟩ := exists_ok_of_map hrun'
  exact ⟨List.Perm.swap _ _ _, t, t', ht, ht', hvalue, hvalue'⟩

end FormulaGraph
