import FormulaGraph.Proofs.Computation.Cycles
import FormulaGraph.Proofs.Evaluation.Depth
import FormulaGraph.Proofs.Evaluation.Shortcut

/-! Supplying values that a computation finds anyway. The computation then finds the same values, or
it breaks off where a step looks up what it no longer has to evaluate. -/
namespace FormulaGraph

/-- The engine with the values that a table has for some identifiers supplied as well. -/
def Engine.pin (e : Engine) (values : Table Value) (pins : List String) : Engine :=
  { e with base := e.base.insertAll (pins.filterMap fun uri => (values.get? uri).map (uri, ·)) }

/-- A table of values that lies between those supplied at first and those of the end, in the form in
which they are supplied and in that in which a session holds them. -/
structure Table.IsBetween (given : Table Value) (extend : String → String)
    (supplied values found : Table Value) (pins : Set String) : Prop where
  lower : supplied ⊆ given
  upper : given ⊆ values
  held_lower : supplied.mapKeys extend ⊆ given.mapKeys extend
  held_upper : given.mapKeys extend ⊆ found
  held_or : ∀ key ∈ (given.mapKeys extend).keys,
    key ∈ (supplied.mapKeys extend).keys ∨ key ∈ pins

namespace Table.IsBetween

variable {extend : String → String} {supplied values found base : Table Value} {pins : Set String}

theorem insert (h : (base.mapKeys extend).IsBetween extend supplied values found pins)
    {uri : String} {v : Value} (hfull : extend uri = uri) (hv : values.get? uri = some v)
    (hfound : supplied.get? uri = none → uri ∈ pins ∧ found.get? uri = some v) :
    ((base.insert uri v).mapKeys extend).IsBetween extend supplied values found pins := by
  cases hgiven : (base.mapKeys extend).get? uri with
  | some w =>
    obtain rfl : v = w := Option.some.inj (hv.symm.trans (h.upper hgiven))
    rwa [Table.mapKeys_insert_of_get? hfull hgiven]
  | none =>
    have hnew := Table.get?_eq_none_of_subset h.lower hgiven
    obtain ⟨hpin, hfound⟩ := hfound hnew
    have hlower := Table.subset_insert_of_new (v := v) h.lower hnew
    have hupper := Table.insert_subset h.upper hv
    rw [Table.mapKeys_insert_of_new hfull hgiven]
    cases hheld : ((base.mapKeys extend).mapKeys extend).get? uri with
    | some w =>
      obtain rfl : v = w := Option.some.inj (hfound.symm.trans (h.held_upper hheld))
      have hsame := Table.mapKeys_insert_of_get? hfull hheld
      exact ⟨hlower, hupper, hsame ▸ h.held_lower, hsame ▸ h.held_upper, hsame ▸ h.held_or⟩
    | none =>
      have hheldnew := Table.get?_eq_none_of_subset h.held_lower hheld
      refine ⟨hlower, hupper, ?_, ?_, ?_⟩ <;> rw [Table.mapKeys_insert_of_new hfull hheld]
      · exact Table.subset_insert_of_new h.held_lower hheldnew
      · exact Table.insert_subset h.held_upper hfound
      · intro key hkey
        rcases Table.mem_keys_insert.1 hkey with rfl | hkey
        · exact Or.inr hpin
        · exact h.held_or key hkey

theorem insertAll {entries : List (String × Value)}
    (h : (base.mapKeys extend).IsBetween extend supplied values found pins)
    (hentries : ∀ p ∈ entries, extend p.1 = p.1 ∧ values.get? p.1 = some p.2 ∧
      (supplied.get? p.1 = none → p.1 ∈ pins ∧ found.get? p.1 = some p.2)) :
    ((base.insertAll entries).mapKeys extend).IsBetween extend supplied values found pins := by
  induction entries generalizing base with
  | nil => exact h
  | cons p rest ih =>
    obtain ⟨⟨hfull, hv, hfound⟩, hrest⟩ := List.forall_mem_cons.1 hentries
    exact ih (h.insert hfull hv hfound) hrest

end Table.IsBetween

namespace Engine

variable {e : Engine} {values : Table Value} {pins : List String} {orders : Table Order}

section Stages

theorem unsupplied?_eq_none_iff {ns : Namespaces} {base : Table Value} {entities : Table Entity} :
    Entity.unsupplied? ns base entities = none ↔ ∀ uri entity, (uri, entity) ∈ entities.entries →
      entity.isDerived = false → Entity.isSupplied ns base uri = true := by
  simp [Entity.unsupplied?]

theorem isSupplied_mono {ns : Namespaces} {base base' : Table Value}
    (h : base.keys ⊆ base'.keys) {uri : String} (hs : Entity.isSupplied ns base uri = true) :
    Entity.isSupplied ns base' uri = true := by
  simp only [Entity.isSupplied, Bool.or_eq_true, List.any_eq_true, decide_eq_true_eq,
    Table.contains_iff] at hs ⊢
  rcases hs with ⟨key, hkey, heq⟩ | hshort
  · exact Or.inl ⟨key, h hkey, heq⟩
  · exact Or.inr (h hshort)

theorem unsupplied?_mono {ns : Namespaces} {entities : Table Entity} {base base' : Table Value}
    (h : base.keys ⊆ base'.keys) (hv : Entity.unsupplied? ns base entities = none) :
    Entity.unsupplied? ns base' entities = none := by
  rw [unsupplied?_eq_none_iff] at hv ⊢
  exact fun uri entity hentry hd => isSupplied_mono h (hv uri entity hentry hd)

theorem keys_subset_pin : e.base.keys ⊆ (e.pin values pins).base.keys := by
  intro key hkey
  obtain ⟨v, hv⟩ := Table.mem_keys_iff.1 hkey
  rw [Table.mem_keys_iff, ← Option.isSome_iff_exists, pin, Table.get?_insertAll, hv]
  simp

theorem prepare_pin (h : e.prepare = .ok orders) : (e.pin values pins).prepare = .ok orders := by
  obtain ⟨found, hfound, hsupplied, horders⟩ := prepare_eq_ok_iff.1 h
  exact prepare_eq_ok_iff.2 ⟨found, hfound, unsupplied?_mono keys_subset_pin hsupplied, horders⟩

theorem compute_eq_of_check (hp : e.prepare = .ok orders) (hc : e.check orders = .ok ()) :
    e.compute = (evaluateOrders e.namespaces orders e.supplied).mapError .evaluation := by
  rw [compute_eq, hp]
  change (e.check orders).bind _ = _
  rw [hc]
  rfl

end Stages

section Rounds

variable {c : Shortcut} {s s' t t' : Session} {uri : String} {v : Value}

theorem trails_session (h : c.InStep s t) (horders : t.orders = s.orders)
    (hr : s.resolve uri = (.ok v, s')) :
    (Evaluation.resolve t.depth uri).Ensures t (fun w t' => w = v ∧ c.InStep s' t')
      fun e _ => c.Misses e := by
  have hdepth : t.depth = s.depth := by rw [Session.depth, Session.depth, horders]
  rw [hdepth]
  exact (Shortcut.trails_resolve s.depth uri s t h).ok_of_run hr

/-- A round of the loop in which only the first session evaluates. -/
theorem inStep_of_resolve_left (h : c.InStep s t) (hr : s.resolve uri = (.ok v, s'))
    (hknown : c.extend uri ∈ t.values.keys) : c.InStep s' t := by
  obtain ⟨w, hw⟩ := Table.mem_keys_iff.1 hknown
  exact ((h.ensures_resolve_left s.depth hw).ok_of_run hr).2

/-- A round in which both evaluate. -/
theorem inStep_of_resolve (h : c.InStep s t) (horders : t.orders = s.orders)
    (hr : s.resolve uri = (.ok v, s')) {w : Value} (hr' : t.resolve uri = (.ok w, t')) :
    c.InStep s' t' :=
  ((trails_session h horders hr).ok_of_run hr').2

/-- A round in which the second session fails. -/
theorem isPremature_of_resolve (h : c.InStep s t) (horders : t.orders = s.orders)
    (hidle : s.inProgress = []) (hr : s.resolve uri = (.ok v, s')) {cause : EvaluationError}
    (hr' : t.resolve uri = (.error cause, t')) :
    cause.IsPremature c.orders c.extend fun key => c.given.get? key = none ∧ c.Beneath key :=
  (trails_session h horders hr).err_of_run hr' fun hdeep =>
    Session.resolve_ne_tooDeep (h.inProgress.trans hidle) (hdeep ▸ hr')

/-- The loop in step with one that was given more values: it can only fail where it looks up too
early what a pin depends on. -/
theorem isPremature_of_evaluateAll (h : c.InStep s t) (hidle : s.inProgress = [])
    (horders : t.orders = s.orders) {values given result : Table Value} {uris : List String}
    (hless : ∀ uri ∈ values.keys, uri ∈ given.keys)
    (hknown : ∀ uri ∈ given.keys, uri ∈ values.keys ∨ c.extend uri ∈ t.values.keys)
    (hok : evaluateAll s values uris = .ok result) {cause : EvaluationError}
    (hfail : evaluateAll t given uris = .error cause) :
    cause.IsPremature c.orders c.extend fun key => c.given.get? key = none ∧ c.Beneath key := by
  induction uris generalizing s t values given with
  | nil => contradiction
  | cons uri rest ih =>
    rw [evaluateAll] at hok hfail
    by_cases hc : uri ∈ values.keys
    · -- both pass over it
      rw [if_pos (Table.contains_iff.2 hc)] at hok
      rw [if_pos (Table.contains_iff.2 (hless uri hc))] at hfail
      exact ih h hidle horders hless hknown hok hfail
    rw [if_neg (mt Table.contains_iff.1 hc)] at hok
    cases hr : s.resolve uri with
    | mk r s' =>
    rw [hr] at hok
    cases r with
    | error e => contradiction
    | ok v =>
    dsimp only at hok
    have hgrows := Session.growsTo_of_resolve h.left.unsettled hr
    have hidle' : s'.inProgress = [] := hgrows.inProgress.trans hidle
    have hless' : ∀ name ∈ (values.insert uri v).keys, name = uri ∨ name ∈ given.keys :=
      fun name hname => (Table.mem_keys_insert.1 hname).imp_right (hless name)
    by_cases hg : uri ∈ given.keys
    · -- only the first one evaluates it
      rw [if_pos (Table.contains_iff.2 hg)] at hfail
      have hm := inStep_of_resolve_left h hr ((hknown uri hg).resolve_left hc)
      refine ih hm hidle' (horders.trans hgrows.orders.symm)
        (fun name hname => (hless' name hname).elim (fun heq => heq ▸ hg) id)
        (fun name hname => ?_) hok hfail
      exact (hknown name hname).imp_left fun hv => Table.mem_keys_insert.2 (Or.inr hv)
    rw [if_neg (mt Table.contains_iff.1 hg)] at hfail
    cases hr' : t.resolve uri with
    | mk r t' =>
    rw [hr'] at hfail
    cases r with
    | error e =>
      obtain rfl := Except.error.inj hfail
      exact isPremature_of_resolve h horders hidle hr hr'
    | ok w =>
      dsimp only at hfail
      have hm := inStep_of_resolve h horders hr hr'
      have hgrows' := Session.growsTo_of_resolve h.right.unsettled hr'
      refine ih hm hidle' (by rw [hgrows.orders, hgrows'.orders, horders]) (fun name hname => ?_)
        (fun name hname => ?_) hok hfail
      · exact Table.mem_keys_insert.2 (hless' name hname)
      · rcases Table.mem_keys_insert.1 hname with rfl | hname
        · exact Or.inl (Table.mem_keys_insert.2 (Or.inl rfl))
        · exact (hknown name hname).imp (fun hv => Table.mem_keys_insert.2 (Or.inr hv))
            hgrows'.mem_keys_mono

end Rounds

section Loop

variable {ns : Namespaces} {supplied given found : Table Value} {pinned : Set String}

def shortcut (h : given.IsBetween ns.extend supplied values found pinned)
    (hgrows : Grows ns.extend (orders.mapKeys ns.extend) [] (supplied.mapKeys ns.extend) found) :
    Shortcut where
  extend := ns.extend
  orders := orders.mapKeys ns.extend
  base := supplied.mapKeys ns.extend
  final := found
  grows := hgrows
  given := given.mapKeys ns.extend
  pins := pinned
  base_subset := h.held_lower
  given_subset := h.held_upper
  given_or := h.held_or

theorem inStep_new (h : given.IsBetween ns.extend supplied values found pinned)
    (hgrows : Grows ns.extend (orders.mapKeys ns.extend) [] (supplied.mapKeys ns.extend) found) :
    (shortcut h hgrows).InStep (Session.new ns orders supplied) (Session.new ns orders given) where
  left := ⟨rfl, fun _ => rfl, .refl, Session.unsettled_new _ _ _⟩
  right := ⟨rfl, fun _ => rfl, .refl, Session.unsettled_new _ _ _⟩
  inProgress := rfl
  behind _ hkey := Or.inl (Table.mem_keys_of_subset h.held_lower hkey)
  ahead key hkey := (h.held_or key hkey).imp_right Or.inl
  writable := .refl _

/-- Evaluation from a table between ends with the same values, if it ends with values. -/
theorem get?_evaluateOrders_of_isBetween {t : Session}
    (h : given.IsBetween ns.extend supplied values t.values pinned)
    (hst : (Session.new ns orders supplied).CompletesTo t)
    (ht : Evaluated t supplied orders.keys values) {values' : Table Value}
    (hok : evaluateOrders ns orders given = .ok values') (key : String) :
    values'.get? key = values.get? key := by
  obtain ⟨t', hst', ht'⟩ := evaluated_of_evaluateAll (Session.unsettled_new _ _ _) hok
  rw [ht'.get? key]
  cases hg : given.get? key with
  | some v =>
    rw [h.upper hg]
    rfl
  | none =>
    have hs := Table.get?_eq_none_of_subset h.lower hg
    rw [ht.get? key, hs]
    by_cases hmem : key ∈ orders.keys
    · obtain ⟨v, hv⟩ := ht.known key hmem hs
      obtain ⟨w, hw⟩ := ht'.known key hmem hg
      have hresumes : (given.mapKeys ns.extend).Resumes ns.extend (orders.mapKeys ns.extend)
          (supplied.mapKeys ns.extend) t.values := {
        grows := hst.values
        subset := h.held_lower
        found := fun key x y hx hy => Option.some.inj (hx.symm.trans (h.held_upper hy))
        writable := hst.writable }
      have hvw : v = w := by
        unfold Session.known at hv hw
        rw [hst.namespaces] at hv
        rw [hst'.namespaces] at hw
        exact hresumes.get?_unique hst'.values hv hw
      simp [hmem, hv, hw, hvw]
    · simp [hmem]

end Loop

theorem isBetween_pin (hfull : ∀ uri ∈ pins, e.namespaces.extend uri = uri) {t : Session}
    (hst : (Session.new e.namespaces orders e.supplied).CompletesTo t)
    (ht : Evaluated t e.supplied orders.keys values) :
    (e.pin values pins).supplied.IsBetween e.namespaces.extend e.supplied values t.values
      {uri | uri ∈ pins ∧ uri ∉ e.supplied.keys} := by
  have hbegin : (e.base.mapKeys e.namespaces.extend).IsBetween e.namespaces.extend e.supplied
      values t.values {uri | uri ∈ pins ∧ uri ∉ e.supplied.keys} := {
    lower := fun _ _ => id
    upper := fun key v hv => by
      have hsupplied : e.supplied.get? key = some v := hv
      rw [ht.get? key, hsupplied]
      rfl
    held_lower := fun _ _ => id
    held_upper := fun _ _ => hst.get?_mono
    held_or := fun _ => Or.inl }
  refine hbegin.insertAll fun p hp => ?_
  obtain ⟨uri, hpin, hp⟩ := List.mem_filterMap.1 hp
  obtain ⟨v, hv, rfl⟩ := Option.map_eq_some_iff.1 hp
  refine ⟨hfull uri hpin, hv, fun hnew => ⟨⟨hpin, Table.get?_eq_none_iff.1 hnew⟩, ?_⟩⟩
  rw [ht.get? uri, hnew, Option.none_or] at hv
  split at hv
  · rwa [Session.known, hst.namespaces, Session.new, hfull uri hpin] at hv
  · contradiction

theorem check_pin (hsub : e.supplied ⊆ (e.pin values pins).supplied)
    (h : e.check orders = .ok ()) : (e.pin values pins).check orders = .ok () := by
  rw [check_eq_ok_iff] at h ⊢
  refine fun heager => (h heager).mono fun key hkey => ?_
  exact Table.contains_iff.2 (Table.mem_keys_of_subset hsub (Table.contains_iff.1 hkey))

/-- The computation ends with the values of a table, in some order. -/
def Computes (e : Engine) (values : Table Value) : Prop :=
  ∃ values', e.compute = .ok values' ∧ ∀ key, values'.get? key = values.get? key

end Engine

/-- **Pinning.** Supplying identifiers in full form with the values that a computation finds for them
either does not change what it finds, or makes it break off: a step looks up an identifier that was
evaluated only because a pinned one depends on it. If there is no such step, nothing changes. -/
theorem pinning_keeps_values (e : Engine) (values : Table Value) (h : e.compute = .ok values)
    (pins : List String) (hfull : ∀ uri ∈ pins, e.namespaces.extend uri = uri) :
    ∃ orders, e.prepare = .ok orders ∧
      let s := Session.new e.namespaces orders (e.pin values pins).supplied
      let spared := fun key => s.values.get? key = none ∧ ∃ pin ∈ pins, pin ∉ e.supplied.keys ∧
        Relation.TransGen (s.orders.Depends e.namespaces.extend) pin key
      ((e.pin values pins).Computes values ∨
        ∃ cause, (e.pin values pins).compute = .error (.evaluation cause) ∧
          cause.IsPremature s.orders e.namespaces.extend spared) ∧
      ((∀ key ∈ s.orders.keys, spared key → ¬ s.orders.LooksUp e.namespaces.extend key) →
        (e.pin values pins).Computes values) := by
  obtain ⟨orders, hprepare, hcheck, hvalues⟩ := Engine.compute_eq_ok_iff.1 h
  obtain ⟨t, hst, ht⟩ := Engine.evaluated_of_evaluateAll (Session.unsettled_new _ _ _) hvalues
  have hbetween := Engine.isBetween_pin hfull hst ht
  have hcompute : (e.pin values pins).compute = (Engine.evaluateOrders e.namespaces orders
      (e.pin values pins).supplied).mapError .evaluation :=
    Engine.compute_eq_of_check (Engine.prepare_pin hprepare)
      (Engine.check_pin hbetween.lower hcheck)
  refine ⟨orders, hprepare, ?_⟩
  intro s spared
  have heither : (e.pin values pins).Computes values ∨
      ∃ cause, (e.pin values pins).compute = .error (.evaluation cause) ∧
        cause.IsPremature s.orders e.namespaces.extend spared := by
    cases hrun : Engine.evaluateOrders e.namespaces orders (e.pin values pins).supplied with
    | ok values' =>
      refine Or.inl ⟨values', by rw [hcompute, hrun]; rfl, fun key => ?_⟩
      exact Engine.get?_evaluateOrders_of_isBetween hbetween hst ht hrun key
    | error cause =>
      refine Or.inr ⟨cause, by rw [hcompute, hrun]; rfl, ?_⟩
      have hpremature := Engine.isPremature_of_evaluateAll
        (Engine.inStep_new hbetween hst.values) rfl rfl
        (fun uri => Table.mem_keys_of_subset hbetween.lower)
        (fun uri huri => Or.inr (Table.mem_keys_mapKeys.2 ⟨uri, huri, rfl⟩)) hvalues hrun
      refine hpremature.mono ?_
      rintro key ⟨hnew, pin, ⟨hpin, hunsupplied⟩, hpath⟩
      exact ⟨hnew, pin, hpin, hunsupplied, hpath⟩
  refine ⟨heither, fun hlooks => heither.resolve_right ?_⟩
  rintro ⟨cause, -, hpremature⟩
  obtain ⟨key, hkey, hlooksUp, hspared⟩ := hpremature.exists_looksUp
  exact hlooks key hkey hspared hlooksUp

/-- The order of `u` evaluates `a`, that of `w` looks it up. -/
def Engine.relying : Engine :=
  .ofRules .standard [("u", "[a]+0"), ("w", "[a]"), ("a", "[x]*2")]

theorem Engine.exists_relying : ∃ values found, Engine.relying.compute = .ok values ∧
    Engine.relying.discover = .ok found ∧ "u" ∈ Entity.derived found.result ∧
    ¬ (Engine.relying.pin values ["u"]).Computes values := by
  have hrun : (match Engine.relying.compute, Engine.relying.discover with
      | .ok values, .ok found => decide ("u" ∈ Entity.derived found.result) &&
        (Engine.relying.pin values ["u"]).compute.toOption.isNone
      | _, _ => false) = true := by decide +kernel
  cases hv : Engine.relying.compute with
  | error cause => simp [hv] at hrun
  | ok values =>
  cases hf : Engine.relying.discover with
  | error cause => simp [hv, hf] at hrun
  | ok found =>
  simp only [hv, hf, Bool.and_eq_true, decide_eq_true_eq] at hrun
  refine ⟨values, found, rfl, rfl, hrun.1, ?_⟩
  rintro ⟨values', hpinned, -⟩
  simp [hpinned, Except.toOption] at hrun

/-- Pinning `b` changes nothing where nothing looks it up; pinning `u` where `w` relies on it is
noticed when `a` is looked up. -/
theorem pinning_keeps_values_relying :
    (∃ values, Engine.doubled.compute = .ok values ∧
      (Engine.doubled.pin values ["b"]).Computes values) ∧
    ∃ values orders cause, Engine.relying.compute = .ok values ∧
      Engine.relying.prepare = .ok orders ∧
      (Engine.relying.pin values ["u"]).compute = .error (.evaluation cause) ∧
      cause.IsPremature (orders.mapKeys Namespaces.standard.extend) Namespaces.standard.extend
        fun key => ∃ pin ∈ ["u"], Relation.TransGen ((orders.mapKeys
          Namespaces.standard.extend).Depends Namespaces.standard.extend) pin key := by
  constructor
  · have hrun : (match Engine.doubled.compute with
        | .ok values => (Engine.doubled.pin values ["b"]).compute.toOption.isSome
        | .error _ => false) = true := by decide +kernel
    cases hv : Engine.doubled.compute with
    | error cause => simp [hv] at hrun
    | ok values =>
    simp only [hv] at hrun
    obtain ⟨orders, -, heither, -⟩ :=
      pinning_keeps_values Engine.doubled values hv ["b"] (by decide +kernel)
    refine ⟨values, rfl, heither.resolve_right ?_⟩
    rintro ⟨cause, hfail, -⟩
    simp [hfail, Except.toOption] at hrun
  · obtain ⟨values, found, hv, -, -, hpinned⟩ := Engine.exists_relying
    obtain ⟨orders, hprepare, heither, -⟩ :=
      pinning_keeps_values Engine.relying values hv ["u"] (by decide +kernel)
    obtain ⟨cause, hfail, hpremature⟩ := heither.resolve_left hpinned
    refine ⟨values, orders, cause, hv, hprepare, hfail, hpremature.mono ?_⟩
    rintro key ⟨-, pin, hpin, -, hpath⟩
    exact ⟨pin, hpin, hpath⟩

def Engine.crossed : Engine :=
  .ofRules (Namespaces.standard.addAll [("p", "q:"), ("q", "p:")])
    [("p:a", "[x]*2"), ("q:a", "[x]*3")]

/-- Pinning is not neutral. With `u` pinned nothing evaluates `a` before it is looked up; and where an
identifier is not in full form, its value is supplied for another one. -/
theorem pinning_not_neutral :
    (∃ values found, Engine.relying.compute = .ok values ∧
      Engine.relying.discover = .ok found ∧ "u" ∈ Entity.derived found.result ∧
      ¬ (Engine.relying.pin values ["u"]).Computes values) ∧
    ∃ values found, Engine.crossed.compute = .ok values ∧
      Engine.crossed.discover = .ok found ∧ "p:a" ∈ Entity.derived found.result ∧
      ¬ (Engine.crossed.pin values ["p:a"]).Computes values := by
  refine ⟨Engine.exists_relying, ?_⟩
  have hrun : (match Engine.crossed.compute, Engine.crossed.discover with
      | .ok values, .ok found => decide ("p:a" ∈ Entity.derived found.result) &&
        match (Engine.crossed.pin values ["p:a"]).compute with
        | .ok values' => (values'.get? "q:a").map Value.literal !=
            (values.get? "q:a").map Value.literal
        | .error _ => false
      | _, _ => false) = true := by decide +kernel
  cases hv : Engine.crossed.compute with
  | error cause => simp [hv] at hrun
  | ok values =>
  cases hf : Engine.crossed.discover with
  | error cause => simp [hv, hf] at hrun
  | ok found =>
  simp only [hv, hf, Bool.and_eq_true, decide_eq_true_eq] at hrun
  refine ⟨values, found, rfl, rfl, hrun.1, ?_⟩
  rintro ⟨values', hpinned, hsame⟩
  simp [hpinned, hsame] at hrun

end FormulaGraph
