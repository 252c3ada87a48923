import FormulaGraph.Proofs.Evaluation.Agreement

/-! When an evaluation succeeds. If some history has found the value of an identifier, then resolving
it gives that value in every session that began with the same values, or with more of those found.
It can only break off where a step looks up what is yet to be evaluated, and it never does if such
steps look up nothing but what was supplied. -/
namespace FormulaGraph

/-- The identifiers a step looks up and does not evaluate. -/
def Step.lookups : Step → List String
  | .chain _ _ _ => []
  | step => step.references

def Rule.lookups (rule : Value) : List String :=
  match Step.ofRule rule with
  | .ok step => step.lookups
  | .error _ => []

theorem Rule.lookups_of_ok {rule : Value} {step : Step} (hs : Step.ofRule rule = .ok step) :
    lookups rule = step.lookups := by
  rw [lookups, hs]

theorem Rule.lookups_subset (rule : Value) : lookups rule ⊆ references rule := by
  unfold lookups references
  cases Step.ofRule rule with
  | ok step => cases step <;> simp [Step.lookups]
  | error cause => exact List.Subset.refl []

/-- Rules look up no identifier that has an order and no value in `t`. -/
def Table.LooksUpSupplied (orders : Table Order) (extend : String → String) (t : Table Value) :
    Prop :=
  ∀ entry ∈ orders.entries, ∀ rule ∈ entry.2, ∀ ref ∈ Rule.lookups rule,
    extend ref ∈ orders.keys → extend ref ∈ t.keys

instance (orders : Table Order) (extend : String → String) (t : Table Value) :
    Decidable (orders.LooksUpSupplied extend t) :=
  inferInstanceAs (Decidable (∀ entry ∈ orders.entries, ∀ rule ∈ entry.2,
    ∀ ref ∈ Rule.lookups rule, extend ref ∈ orders.keys → extend ref ∈ t.keys))

/-- A rule of an order that was under evaluation looked up `key` before it had a value, which it
would have got from its order. -/
structure Context.Premature (context : Context) (orders : Table Order) (extend : String → String)
    (key : String) : Prop where
  derived : key ∈ orders.keys
  unknown : context.values.get? key = none
  looked : ∃ ref ∈ Rule.lookups context.rule, extend ref = key
  rule : context.rule ∈ context.rules
  owner : ∃ owner, context.owner = some owner ∧ orders.get? owner = some context.rules

def Table.LooksUp (orders : Table Order) (extend : String → String) (key : String) : Prop :=
  ∃ owner rules, orders.get? owner = some rules ∧
    ∃ rule ∈ rules, ∃ ref ∈ Rule.lookups rule, extend ref = key

/-- The error of looking up too early an identifier that `which` holds of. -/
def EvaluationError.IsPremature (orders : Table Order) (extend : String → String)
    (which : String → Prop) : EvaluationError → Prop
  | .invalidRule (.notComputed key) context => context.Premature orders extend key ∧ which key
  | _ => False

section Premature

variable {orders : Table Order} {extend : String → String} {which which' : String → Prop}
  {e : EvaluationError}

theorem EvaluationError.IsPremature.mono (h : e.IsPremature orders extend which)
    (hw : ∀ key, which key → which' key) : e.IsPremature orders extend which' := by
  unfold IsPremature at *
  split at h
  · exact ⟨h.1, hw _ h.2⟩
  · exact h.elim

theorem EvaluationError.IsPremature.exists_looksUp (h : e.IsPremature orders extend which) :
    ∃ key ∈ orders.keys, orders.LooksUp extend key ∧ which key := by
  unfold IsPremature at h
  split at h
  · obtain ⟨⟨hderived, -, hlooked, hrule, owner, -, ho⟩, hkey⟩ := h
    exact ⟨_, hderived, ⟨owner, _, ho, _, hrule, hlooked⟩, hkey⟩
  · contradiction

theorem Table.LooksUpSupplied.not_isPremature {supplied : Table Value}
    (h : orders.LooksUpSupplied extend supplied) (hw : ∀ key, which key → key ∉ supplied.keys) :
    ¬ e.IsPremature orders extend which := by
  intro he
  obtain ⟨_, hderived, ⟨owner, rules, ho, rule, hrule, ref, href, rfl⟩, hkey⟩ := he.exists_looksUp
  exact hw _ hkey (h _ (Table.get?_eq_some_iff.1 ho) rule hrule ref href hderived)

end Premature

namespace Evaluation

variable {resolve : String → Evaluation Value} {s : Session} {read : String → Option Value}
  {may : EvaluationError → Prop}

/-- Wherever growth from `s` has led, `resolve` finds what `read` gives for an identifier, or breaks
off with an error that may be. -/
def Finds (resolve : String → Evaluation Value) (may : EvaluationError → Prop) (s : Session)
    (read : String → Option Value) (ref : String) : Prop :=
  ∀ t, s.GrowsTo t →
    (resolve ref).Ensures t (fun v u => t.GrowsTo u ∧ read ref = some v) fun e _ => may e

theorem Finds.of_growsTo {ref : String} {t : Session} (h : Finds resolve may s read ref)
    (ht : s.GrowsTo t) : Finds resolve may t read ref := fun u hu => h u (ht.trans hu)

theorem Finds.ensures {ref : String} {v : Value} (h : Finds resolve may s read ref)
    (hv : read ref = some v) :
    (resolve ref).Ensures s (fun w t => s.GrowsTo t ∧ w = v) fun e _ => may e :=
  (h s (.refl s)).imp (fun _ _ hw => ⟨hw.1, Option.some.inj (hw.2.symm.trans hv)⟩) fun _ _ => id

theorem ensures_leftValue_of_value {left : Option String} {last v : Value}
    (hv : left.elim (some last) read = some v) (h : ∀ ref ∈ left, Finds resolve may s read ref) :
    (leftValue resolve last left).Ensures s (fun w t => s.GrowsTo t ∧ w = v) fun e _ => may e := by
  cases left with
  | none => exact ⟨.refl s, Option.some.inj hv⟩
  | some ref => exact (h ref rfl).ensures hv

theorem ensures_termValue_of_value? {right : Term} {v : Value} (hv : right.value? read = some v)
    (h : ∀ ref ∈ right.ref?, Finds resolve may s read ref) :
    (termValue resolve right).Ensures s (fun w t => s.GrowsTo t ∧ w = v) fun e _ => may e := by
  cases right with
  | number y => exact ⟨.refl s, Option.some.inj hv⟩
  | ref name => exact (h name rfl).ensures hv

theorem ensures_ofArithmetic_of_toOption {α : Type} {x : Except ArithmeticError α} {a : α}
    {ok : α → Session → Prop} {err : EvaluationError → Session → Prop}
    (h : x.toOption = some a) (ha : ok a s) : (ofArithmetic x).Ensures s ok err := by
  cases x with
  | error e => simp [Except.toOption] at h
  | ok b =>
    obtain rfl : b = a := by simpa [Except.toOption] using h
    exact ha

variable (rules : Order) (owner : Option String) (rule last : Value)

theorem finds_lookup_of_known {ref : String} {v : Value} (h : s.known ref = some v)
    (hv : read ref = some v) : Finds (lookup · rule last rules owner) may s read ref := by
  intro t ht
  have hknown : t.values.get? (t.namespaces.extend ref) = some v := ht.known_mono h
  rw [ensures_lookup, hknown]
  exact ⟨.refl t, hv⟩

theorem ensures_applyStep_of_value? {step : Step} {v : Value} (hv : step.value? read last = some v)
    (hlook : ∀ ref ∈ step.lookups, Finds (lookup · rule last rules owner) may s read ref)
    (hfind : ∀ ref ∈ step.dependencies, Finds resolve may s read ref) :
    (applyStep resolve rules owner rule last step).Ensures s
      (fun w t => s.GrowsTo t ∧ w = v) fun e _ => may e := by
  cases step with
  | roundUp => exact ensures_ofArithmetic_of_toOption hv ⟨.refl s, rfl⟩
  | atLeast threshold => exact ensures_ofArithmetic_of_toOption hv ⟨.refl s, rfl⟩
  | choose ref comparison constant thenValue elseValue =>
    obtain ⟨x, hx, hv⟩ := Option.bind_eq_some_iff.1 hv
    obtain ⟨b, hb, hchosen⟩ := Option.bind_eq_some_iff.1 hv
    rw [applyStep, ensures_bind]
    refine ((hlook ref (by simp [Step.lookups, Step.references])).ensures hx).imp ?_ fun _ _ => id
    rintro w t ⟨ht, rfl⟩
    rw [ensures_bind]
    exact ensures_ofArithmetic_of_toOption hb ⟨ht, Option.some.inj hchosen⟩
  | reuse ref => exact (hlook ref (by simp [Step.lookups, Step.references])).ensures hv
  | chain left op right =>
    rw [Step.value?] at hv
    split at hv
    · contradiction
    rename_i hc
    obtain ⟨x, hx, hv⟩ := Option.bind_eq_some_iff.1 hv
    obtain ⟨y, hy, hv⟩ := Option.bind_eq_some_iff.1 hv
    have hleft : ∀ ref ∈ left, Finds resolve may s read ref := fun ref href =>
      hfind ref (by simp [Step.dependencies, Step.references, Option.mem_def.1 href])
    have hright : ∀ ref ∈ right.ref?, Finds resolve may s read ref := fun ref href =>
      hfind ref (by simp [Step.dependencies, Step.references, Option.mem_def.1 href])
    rw [applyStep, if_neg hc, ensures_bind]
    refine (ensures_leftValue_of_value hx hleft).imp ?_ fun _ _ => id
    rintro w t ⟨hst, rfl⟩
    rw [ensures_bind]
    have hafter := ensures_termValue_of_value? hy fun ref href => (hright ref href).of_growsTo hst
    refine hafter.imp ?_ fun _ _ => id
    rintro z u ⟨htu, rfl⟩
    exact ensures_ofArithmetic_of_toOption hv ⟨hst.trans htu, rfl⟩

/-- The references of the rules of `todo` are found, whether they are resolved or looked up. -/
structure Provides (resolve : String → Evaluation Value) (may : EvaluationError → Prop)
    (rules : Order) (owner : Option String) (s : Session) (read : String → Option Value)
    (todo : Order) : Prop where
  finds : ∀ ref, todo.Resolves ref → Finds resolve may s read ref
  looks : ∀ rule ∈ todo, ∀ ref ∈ Rule.lookups rule, ∀ last,
    Finds (lookup · rule last rules owner) may s read ref

variable {rules owner rule}

theorem Provides.tail {todo : Order} (h : Provides resolve may rules owner s read (rule :: todo))
    {t : Session} (ht : s.GrowsTo t) : Provides resolve may rules owner t read todo where
  finds := by
    rintro ref ⟨r, hr, href⟩
    exact (h.finds ref ⟨r, by simp [hr], href⟩).of_growsTo ht
  looks r hr ref href last := (h.looks r (by simp [hr]) ref href last).of_growsTo ht

theorem ensures_runRule_of_value? {todo : Order} {v : Value}
    (hv : Rule.value? read last rule = some v)
    (h : Provides resolve may rules owner s read (rule :: todo)) :
    (runRule resolve rules owner last rule).Ensures s
      (fun w t => s.GrowsTo t ∧ w = v) fun e _ => may e := by
  obtain ⟨step, hs, hv, ha⟩ := Rule.value?_eq_some_iff.1 hv
  have hlook : ∀ ref ∈ step.lookups, Finds (lookup · rule last rules owner) may s read ref :=
    fun ref href => h.looks rule (by simp) ref (by rwa [Rule.lookups_of_ok hs]) last
  have hfind : ∀ ref ∈ step.dependencies, Finds resolve may s read ref :=
    fun ref href => h.finds ref ⟨rule, by simp, by rwa [DependencyGraph.ruleDependencies, hs]⟩
  unfold runRule
  rw [hs]
  dsimp only
  rw [ensures_bind]
  refine (ensures_applyStep_of_value? rules owner rule last hv hlook hfind).imp ?_ fun _ _ => id
  rintro w t ⟨ht, rfl⟩
  rw [ha]
  exact ⟨ht, rfl⟩

theorem ensures_foldlM_of_value? {todo : Order} {v : Value}
    (hv : todo.foldlM (Rule.value? read) last = some v)
    (h : Provides resolve may rules owner s read todo) :
    (todo.foldlM (runRule resolve rules owner) last).Ensures s
      (fun w t => s.GrowsTo t ∧ w = v) fun e _ => may e := by
  induction todo generalizing s last with
  | nil => exact ⟨.refl s, Option.some.inj hv⟩
  | cons rule rest ih =>
    rw [List.foldlM_cons] at hv ⊢
    obtain ⟨x, hx, hv⟩ := Option.bind_eq_some_iff.1 hv
    rw [ensures_bind]
    refine (ensures_runRule_of_value? last hx h).imp ?_ fun _ _ => id
    rintro w t ⟨hst, rfl⟩
    refine (ih w hv (h.tail hst)).imp ?_ fun _ _ => id
    rintro z u ⟨htu, hz⟩
    exact ⟨hst.trans htu, hz⟩

theorem ensures_execute_of_value? {v : Value} (hv : rules.value? read = some v)
    (h : Provides resolve may rules owner s.count read rules) :
    (execute resolve rules owner).Ensures s (fun w t => s.count.GrowsTo t ∧ w = v)
      fun e _ => may e := by
  obtain ⟨hne, hv⟩ := Order.value?_eq_some_iff.1 hv
  unfold execute
  rw [ensures_bind, ensures_modify, if_neg (by simpa using hne)]
  exact ensures_foldlM_of_value? .missing hv h

/-- An order whose references are all known is executed without evaluating anything else. -/
theorem ensures_execute_of_known (rules : Order) (owner : Option String) {v : Value}
    (hv : rules.value? s.known = some v) :
    (execute (Evaluation.resolve s.depth) rules owner).Ensures s (fun w _ => w = v)
      fun _ _ => False := by
  have hknown : ∀ rule ∈ rules, ∀ ref ∈ Rule.references rule, ∃ x, s.count.known ref = some x :=
    fun rule hrule => (Order.read_of_value? hv rule hrule).2
  have hprovides : Provides (Evaluation.resolve s.depth) (fun _ => False) rules owner s.count
      s.known rules := by
    constructor
    · rintro ref ⟨rule, hrule, href⟩ t ht
      obtain ⟨x, hx⟩ := hknown rule hrule ref (Rule.dependencies_subset rule href)
      exact ensures_resolve_of_known (ht.known_mono hx) ⟨.refl t, hx⟩
    · intro rule hrule ref href last
      obtain ⟨x, hx⟩ := hknown rule hrule ref (Rule.lookups_subset rule href)
      exact finds_lookup_of_known rules owner rule last hx hx
  exact (ensures_execute_of_value? hv hprovides).imp (fun _ _ h => h.2) fun _ _ => id

end Evaluation

structure Session.GrownFrom (s : Session) (extend : String → String) (orders : Table Order)
    (base : Table Value) : Prop where
  extend_eq : s.namespaces.extend = extend
  get?_orders : ∀ key, s.orders.get? key = orders.get? key
  values : Grows extend orders [] base s.values
  unsettled : s.Unsettled

namespace Session.GrownFrom

variable {s t : Session} {extend : String → String} {orders : Table Order} {base : Table Value}

theorem growsTo (h : s.GrownFrom extend orders base) (ht : s.GrowsTo t) :
    t.GrownFrom extend orders base where
  extend_eq := ht.namespaces ▸ h.extend_eq
  get?_orders := ht.orders ▸ h.get?_orders
  values := by
    have hv := (ht.values.of_subset (List.nil_subset _)).congr_orders h.get?_orders
    rw [h.extend_eq] at hv
    exact h.values.trans hv
  unsettled := ht.unsettled h.unsettled

theorem enter (h : s.GrownFrom extend orders base) {ref : String} {rules : Order}
    (ho : s.Opens ref rules) :
    (s.enter (s.namespaces.extend ref)).GrownFrom extend orders base where
  extend_eq := h.extend_eq
  get?_orders := h.get?_orders
  values := h.values
  unsettled := h.unsettled.enter ho

end Session.GrownFrom

variable {extend : String → String} {orders : Table Order} {base supplied u : Table Value}

theorem Table.LooksUpSupplied.congr_orders {orders' : Table Order}
    (h : orders.LooksUpSupplied extend base) (ho : ∀ key, orders.get? key = orders'.get? key) :
    orders'.LooksUpSupplied extend base := by
  rintro ⟨key, rules⟩ hentry rule hrule ref href hmem
  have hentry' : (key, rules) ∈ orders.entries := by
    rw [← Table.get?_eq_some_iff, ho, Table.get?_eq_some_iff]
    exact hentry
  obtain ⟨other, hother⟩ := Table.mem_keys_iff.1 hmem
  exact h _ hentry' rule hrule ref href (Table.mem_keys_iff.2 ⟨other, (ho _).trans hother⟩)

/-- A history that has led from the values `base` to `u`, and values to begin another one with: those
of `base`, and others that the history has not found otherwise. -/
structure Table.Resumes (supplied : Table Value) (extend : String → String) (orders : Table Order)
    (base u : Table Value) : Prop where
  grows : Grows extend orders [] base u
  subset : base ⊆ supplied
  found : ∀ key v w, u.get? key = some v → supplied.get? key = some w → v = w
  writable : u.WritableBeyond base

theorem Table.Resumes.get?_unique (h : supplied.Resumes extend orders base u) {t : Table Value}
    (ht : Grows extend orders [] supplied t) {key : String} {v w : Value}
    (hv : u.get? key = some v) (hw : t.get? key = some w) : v = w :=
  Grows.get?_unique_of_found (orders.closedUnder_univ extend) (fun _ _ => rfl)
    (fun _ _ _ hx => h.subset hx) (fun key _ => h.found key) h.grows ht key (Set.mem_univ _) v w
    hv hw

/-- What comes of resolving or looking up what has been found: an error only if the evaluation is
given up as too deep, or if something that was found is looked up too early. -/
def Table.Misses (supplied : Table Value) (extend : String → String) (orders : Table Order)
    (u : Table Value) (e : EvaluationError) : Prop :=
  e ≠ .tooDeep → e.IsPremature orders extend fun key => key ∈ u.keys ∧ key ∉ supplied.keys

theorem Table.Misses.insert {e : EvaluationError} (h : supplied.Misses extend orders u e)
    (key : String) (v : Value) : supplied.Misses extend orders (u.insert key v) e := fun he =>
  (h he).mono fun _ hk => ⟨Table.mem_keys_insert.2 (Or.inr hk.1), hk.2⟩

namespace Session.GrownFrom

variable {s : Session} {key : String} {rules : Order} {v : Value}

theorem finds_lookup (hs : s.GrownFrom extend orders supplied)
    (h : supplied.Resumes extend orders base u) (ho : orders.get? key = some rules) {rule : Value}
    (hrule : rule ∈ rules) {ref : String} (href : ref ∈ Rule.lookups rule)
    (hfound : extend ref ∈ u.keys) (last : Value) :
    Evaluation.Finds (Evaluation.lookup · rule last rules (some key))
      (supplied.Misses extend orders u) s (u.reader extend) ref := by
  intro t hst
  have ht := hs.growsTo hst
  obtain ⟨x, hx⟩ := Table.mem_keys_iff.1 hfound
  rw [Evaluation.ensures_lookup, ht.extend_eq]
  cases hv : t.values.get? (extend ref) with
  | some y =>
    obtain rfl := h.get?_unique ht.values hx hv
    exact ⟨.refl t, hx⟩
  | none =>
    have hnew := ht.values.get?_of_none hv
    have hbase := Table.get?_eq_none_of_subset h.subset hnew
    obtain ⟨-, rules', ho', -⟩ := h.grows.solved hx hbase
    have hpremature : Context.Premature ⟨t.values, rule, last, rules, some key⟩ orders extend
        (extend ref) := {
      derived := Table.mem_keys_iff.2 ⟨rules', ho'⟩
      unknown := hv
      looked := ⟨ref, href, rfl⟩
      rule := hrule
      owner := ⟨key, rfl, ho⟩ }
    exact fun _ => ⟨hpremature, hfound, Table.get?_eq_none_iff.1 hnew⟩

theorem provides (hs : s.GrownFrom extend orders supplied)
    (h : supplied.Resumes extend orders base u) (ho : orders.get? key = some rules)
    (hval : rules.value? (u.reader extend) = some v) (hidle : ∀ k ∈ s.inProgress, k ∉ u.keys)
    {depth : Nat} (hresolve : ∀ (t : Session) (ref : String), t.GrownFrom extend orders supplied →
      (∀ k ∈ t.inProgress, k ∉ u.keys) → extend ref ∈ u.keys →
      (Evaluation.resolve depth ref).Ensures t (fun v _ => u.get? (extend ref) = some v)
        fun e _ => supplied.Misses extend orders u e) :
    Evaluation.Provides (Evaluation.resolve depth) (supplied.Misses extend orders u) rules
      (some key) s (u.reader extend) rules := by
  have hmem : ∀ rule ∈ rules, ∀ ref ∈ Rule.references rule, extend ref ∈ u.keys :=
    fun rule hrule ref href =>
      Table.mem_keys_iff.2 ((Order.read_of_value? hval rule hrule).2 ref href)
  constructor
  · rintro name ⟨rule, hrule, hname⟩ t ht
    have hfound := hresolve t name (hs.growsTo ht) (ht.inProgress ▸ hidle)
      (hmem rule hrule name (Rule.dependencies_subset rule hname))
    have hready : Evaluation.growth.ready depth name t := ht.unsettled hs.unsettled
    have hgrows := Evaluation.growth.ensures_resolve hready
    exact (hgrows.and hfound).imp
      (fun y t h => ⟨Session.CompletesTo.toGrowsTo h.1.1, h.2⟩) fun _ _ h => h.2
  · exact fun rule hrule ref href last => hs.finds_lookup h ho hrule href
      (hmem rule hrule ref (Rule.lookups_subset rule href)) last

end Session.GrownFrom

/-- What one history has found, every other one resolves that resumes it, unless it looks something
up too early, if none of it is under evaluation. The induction follows the order in which the values
were found. -/
theorem Table.Resumes.ensures_resolve (h : supplied.Resumes extend orders base u) (depth : Nat)
    {s : Session} (hs : s.GrownFrom extend orders supplied)
    (hbusy : ∀ key ∈ s.inProgress, key ∉ u.keys) {ref : String} (href : extend ref ∈ u.keys) :
    (Evaluation.resolve depth ref).Ensures s (fun v _ => u.get? (extend ref) = some v)
      fun e _ => supplied.Misses extend orders u e := by
  obtain ⟨hgrow, hsub, hfound, hwrite⟩ := h
  induction hgrow generalizing depth s ref with
  | refl =>
    cases depth with
    | zero => exact fun he => absurd rfl he
    | succ depth =>
      obtain ⟨v, hv⟩ := Table.mem_keys_iff.1 href
      have hknown : s.known ref = some v := by
        rw [Session.known, hs.extend_eq]
        exact hs.values.get?_mono (hsub hv)
      exact Evaluation.ensures_resolve_of_known hknown hv
  | @store u key rules v hgrow hb hk ho hval ih =>
    have hold : ∀ k ∈ s.inProgress, k ∉ u.keys := fun k hmem hu =>
      hbusy k hmem (Table.mem_keys_insert.2 (Or.inr hu))
    have hbefore : ∀ key v w, u.get? key = some v → supplied.get? key = some w → v = w :=
      fun key v w hv => hfound key v w (Table.get?_insert_of_new hk hv)
    have hwritten : u.WritableBeyond base := fun key v hv =>
      hwrite key v (Table.get?_insert_of_new hk hv)
    by_cases hkey : extend ref = key
    swap
    · -- found before
      have hu : extend ref ∈ u.keys := (Table.mem_keys_insert.1 href).resolve_left hkey
      exact (ih depth hs hold hu hbefore hwritten).imp (fun x _ hx => Table.get?_insert_of_new hk hx)
        fun e _ he => he.insert key v
    subst hkey
    cases depth with
    | zero => exact fun he => absurd rfl he
    | succ depth =>
      cases hknown : s.known ref with
      | some x =>
        have hx : s.values.get? (extend ref) = some x := by rw [← hs.extend_eq]; exact hknown
        have hv := Table.get?_insert_self u (extend ref) v
        have hresumes : supplied.Resumes extend orders base (u.insert (extend ref) v) :=
          ⟨hgrow.store hb hk ho hval, hsub, hfound, hwrite⟩
        obtain rfl := hresumes.get?_unique hs.values hv hx
        exact Evaluation.ensures_resolve_of_known hknown hv
      | none =>
        have hopens : s.Opens ref rules :=
          { unknown := hknown
            order := by rw [hs.extend_eq, hs.get?_orders, ho]
            idle := fun hmem => by
              rw [hs.extend_eq] at hmem
              exact hbusy _ hmem (Table.mem_keys_insert.2 (Or.inl rfl)) }
        have henter := hs.enter hopens
        have hidle : ∀ k ∈ (s.enter (s.namespaces.extend ref)).inProgress, k ∉ u.keys := by
          intro k hmem
          rcases List.mem_append.1 hmem with hmem | hmem
          · exact hold k hmem
          · rw [List.mem_singleton.1 hmem, hs.extend_eq]
            exact Table.get?_eq_none_iff.1 hk
        have hprovides := henter.provides ⟨hgrow, hsub, hbefore, hwritten⟩ ho hval hidle
          fun t name ht hbusy hname => ih depth ht hbusy hname hbefore hwritten
        refine Evaluation.ensures_resolve_of_opens hopens ?_
        rw [hs.extend_eq] at hprovides ⊢
        refine (Evaluation.ensures_execute_of_value? hval hprovides).imp ?_
          fun e _ he => he.insert _ v
        rintro w t ⟨-, rfl⟩
        have hw := Table.get?_insert_self u (extend ref) w
        have hlong := (hwrite _ w hw).resolve_left fun hbase => by
          rw [hgrow.get?_mono hbase] at hk
          contradiction
        rwa [if_pos hlong]

end FormulaGraph
