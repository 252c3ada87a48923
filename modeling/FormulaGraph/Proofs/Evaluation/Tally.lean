import FormulaGraph.Proofs.Evaluation.Termination

/-! What actions leave behind in a session, whether or not they fail: nothing on the stack, a table
that has only grown, and a count that is right. The values that an action adds are those of the
orders that have ended in it, so in the whole history of a session no order ends twice. -/
namespace FormulaGraph

namespace Session

theorem evaluations_leave {s t : Session} {ref : String} {rules : Order} (hs : s.Unsettled)
    (ho : s.Opens ref rules) (hst : (s.enter (s.namespaces.extend ref)).GrowsTo t)
    (hcount : t.evaluations + s.values.size = s.evaluations + 1 + t.values.size) (v : Value) :
    (t.leave (s.namespaces.extend ref) v).evaluations + s.values.size =
      s.evaluations + (t.leave (s.namespaces.extend ref) v).values.size := by
  have hsize := Table.size_insert_of_new (v := v) (GrowsTo.get?_entered hs ho hst)
  change t.evaluations + s.values.size = s.evaluations + (t.values.insert _ v).size
  omega

end Session

namespace Evaluation

/-- Evaluations count once for each value that they add, and those that break off not less. -/
def tally : Protocol where
  keeps s t := s.GrowsTo t ∧ t.evaluations + s.values.size = s.evaluations + t.values.size
  breaks _ s t := s.GrowsTo t ∧ s.evaluations + t.values.size ≤ t.evaluations + s.values.size
  refl s := ⟨.refl s, rfl⟩
  trans h h' := ⟨h.1.trans h'.1, by omega⟩
  after h h' := ⟨h.1.trans h'.1, by omega⟩
  namespaces h := h.1.namespaces
  known h := h.1.get?_mono
  fault _ _ s := ⟨.refl s, Nat.le_refl _⟩
  arithmetic _ s := ⟨.refl s, Nat.le_refl _⟩
  ready _ _ s := s.Unsettled
  still hs h := h.1.unsettled hs
  tooDeep _ := ⟨.refl _, Nat.le_refl _⟩
  undefined _ _ _ := ⟨.refl _, Nat.le_refl _⟩
  cyclic _ _ _ _ := ⟨.refl _, Nat.le_refl _⟩
  enter hs ho _ _ := hs.enter ho
  leave hs ho h hv _ := ⟨h.1.leave hs ho hv, Session.evaluations_leave hs ho h.1 h.2 _⟩
  unwritable hs ho h hv _ := ⟨h.1.leave hs ho hv, (Session.evaluations_leave hs ho h.1 h.2 _).ge⟩
  escape := by
    rintro depth ref s rules t e hs ho ⟨hst, hcount⟩
    refine ⟨hst.pop, ?_⟩
    change s.evaluations + 1 + t.values.size ≤ t.evaluations + s.values.size at hcount
    change s.evaluations + t.values.size ≤ t.evaluations + s.values.size
    omega

end Evaluation

namespace Session

/-- What a call counts on top of the values it adds: an order that is no identifier's. -/
def Call.own : Call → Nat
  | .resolve _ => 0
  | .execute _ _ => 1

/-- What an action that has added so many values does to the count of evaluations. -/
def Counts (s : Session) (added : Nat) : Action → Prop
  | .call call =>
    match s.answer call with
    | (.ok _, t) => t.evaluations = s.evaluations + added + call.own
    | (.error _, t) => s.evaluations + added ≤ t.evaluations
  | .register name uri => (s.addPrefix name uri).evaluations = s.evaluations + added

variable {s : Session}

theorem ensures_tally (hs : s.Unsettled) (call : Call) : (call.evaluation s.depth).Ensures s
    (fun _ t => t.evaluations + s.values.size = s.evaluations + t.values.size + call.own)
    fun _ t => s.evaluations + t.values.size ≤ t.evaluations + s.values.size := by
  have hready : ∀ ref, Evaluation.tally.ready s.depth ref s := fun _ => hs
  cases call with
  | resolve identifier =>
    exact (Evaluation.tally.ensures_resolve (hready identifier)).imp (fun _ _ h => h.1.2)
      fun _ _ h => h.2
  | execute rules owner =>
    have hadmits : ∀ ref, rules.Resolves ref → Evaluation.tally.Admits
        (Evaluation.resolve s.depth) s.count ref := fun ref _ t ht =>
      Evaluation.tally.ensures_resolve (ht.1.unsettled hs)
    refine (Evaluation.Frame.ensures_execute rules owner hadmits).imp ?_ ?_
    · rintro v t ⟨⟨-, hcount⟩, -⟩
      change t.evaluations + s.values.size = s.evaluations + 1 + t.values.size at hcount
      change t.evaluations + s.values.size = s.evaluations + t.values.size + 1
      omega
    · rintro e t ⟨-, hcount⟩
      change s.evaluations + 1 + t.values.size ≤ t.evaluations + s.values.size at hcount
      omega

theorem counts_call (hs : s.Unsettled) (call : Call) {added : Nat}
    (hsize : (s.answer call).2.values.size = s.values.size + added) :
    s.Counts added (.call call) := by
  have h := ensures_answer (ensures_tally hs call)
  rw [Counts]
  generalize s.answer call = r at h hsize ⊢
  rcases r with ⟨e | v, t⟩
  · change s.evaluations + t.values.size ≤ t.evaluations + s.values.size at h
    change t.values.size = s.values.size + added at hsize
    change s.evaluations + added ≤ t.evaluations
    omega
  · change t.evaluations + s.values.size = s.evaluations + t.values.size + call.own at h
    change t.values.size = s.values.size + added at hsize
    change t.evaluations = s.evaluations + added + call.own
    omega

end Session

namespace Machine.Configuration

/-- The orders of identifiers that end within so many steps, with their values. -/
def completions (c : Configuration) : Nat → List (String × Value)
  | 0 => []
  | n + 1 => c.completions n ++ ((c.moment n).bind (·.control.completed?)).toList

variable {orders : Table Order} {c d : Configuration}

theorem Sound.entries_move (h : c.Sound orders) (hm : Move c d) :
    d.session.values.entries = c.session.values.entries ++ c.control.completed?.toList := by
  cases hm with
  | enter key hnew horder hidle hsession hopened hbefore hafter =>
    rw [hsession, hbefore]
    exact (List.append_nil _).symm
  | leave key hsession hopened hbefore hafter =>
    rw [hsession, hbefore]
    exact (List.append_nil _).symm
  | store key v hsession hopened hbefore hafter =>
    rw [hsession, hbefore]
    exact Table.entries_insert_of_new v (h.completed key v hbefore).2.1
  | quiet hsession hopened hbefore hafter =>
    have hvalues : d.session.values = c.session.values := by
      rcases hsession with heq | heq
      · rw [heq]
      · rw [heq]
        rfl
    rw [hvalues, hbefore]
    exact (List.append_nil _).symm

/-- The table grows by the values of the orders that end. -/
theorem Sound.entries_moment (h : c.Sound orders) {n : Nat} (hd : c.moment n = some d) :
    d.session.values.entries = c.session.values.entries ++ c.completions n := by
  induction n generalizing d with
  | zero =>
    obtain rfl := Option.some.inj hd
    exact (List.append_nil _).symm
  | succ n ih =>
    obtain ⟨b, hb, hstep⟩ := Option.bind_eq_some_iff.1 hd
    rw [(h.moment hb).entries_move (move_of_step hstep), ih hb, List.append_assoc, completions, hb]
    rfl

end Machine.Configuration

/-- What has been added to a table are values of orders, read off the table as it is in the end. -/
theorem Session.GrowsTo.solved {s t : Session} (h : s.GrowsTo t) {added : List (String × Value)}
    (hadded : t.values.entries = s.values.entries ++ added) :
    ∀ entry ∈ added, ∃ rules, s.orders.get? entry.1 = some rules ∧
      rules.value? (t.values.reader s.namespaces.extend) = some entry.2 := by
  rintro ⟨key, v⟩ hentry
  have hvalue : t.values.get? key = some v := by
    rw [Table.get?_eq_some_iff, hadded]
    exact List.mem_append_right _ hentry
  have hnew : s.values.get? key = none := by
    have hnodup := t.values.nodup
    rw [hadded, List.map_append] at hnodup
    refine Table.get?_eq_none_iff.2 fun hmem => ?_
    exact (List.nodup_append.1 hnodup).2.2 key hmem key (List.mem_map_of_mem hentry) rfl
  obtain ⟨-, rules, ho, hv⟩ := h.values.solved hvalue hnew
  exact ⟨rules, ho, hv⟩

/-- **What an action leaves behind.** After any history of a session, failed calls included, each
further action leaves the stack empty and the orders and all values as they are. It adds values to
the table, in the order in which the orders of their identifiers ended, each of an identifier that
had none before, and each the one that its order has on the table afterwards. The count grows by
their number, and by one more for an order that is no identifier's; it grows by no less if the
action fails. -/
theorem actions_keep_session (ns : Namespaces) (orders : Table Order) (values : Table Value)
    (history : List Session.Action) (action : Session.Action) :
    let s := (Session.new ns orders values).through history
    let t := s.act action
    s.inProgress = [] ∧ t.inProgress = [] ∧ t.orders = s.orders ∧
    ∃ added, t.values.entries = s.values.entries ++ added ∧
      (s.values.keys ++ added.map Prod.fst).Nodup ∧
      (∀ entry ∈ added, ∃ rules, s.orders.get? entry.1 = some rules ∧
        rules.value? (t.values.reader s.namespaces.extend) = some entry.2) ∧
      s.Counts added.length action ∧
      ∀ call, action = .call call → ∃ n,
        (Machine.start s call).moment n = some (Machine.stop (s.answer call)) ∧
        (Machine.start s call).completions n = added := by
  intro s t
  have hs : s.inProgress = [] := Session.inProgress_through rfl history
  refine ⟨hs, Session.inProgress_act hs action, ?_⟩
  cases action with
  | register name uri =>
    have hkeys : s.values.keys.Nodup := s.values.nodup_keys
    exact ⟨rfl, [], (List.append_nil _).symm, by simpa using hkeys, by simp, rfl, nofun⟩
  | call call =>
    have hunsettled : s.Unsettled := by simp [Session.Unsettled, hs]
    have hgrows : s.GrowsTo t := Session.growsTo_perform hunsettled call
    have ht : (s.answer call).2 = t := s.answer_snd call
    obtain ⟨-, hreaches⟩ := Machine.reaches_stop hs call
    obtain ⟨n, hn⟩ := Machine.Configuration.exists_moment_of_reaches hreaches
    have hsession : (Machine.start s call).session = s := by cases call <;> rfl
    have hentries : t.values.entries =
        s.values.entries ++ (Machine.start s call).completions n := by
      have hmoment := (Machine.sound_start hs call).entries_moment hn
      rw [hsession] at hmoment
      rw [← ht]
      exact hmoment
    have hsize : (s.answer call).2.values.size =
        s.values.size + ((Machine.start s call).completions n).length := by
      rw [ht, Table.size, hentries, List.length_append, Table.size]
    have hkeys : (s.values.keys ++
        ((Machine.start s call).completions n).map Prod.fst).Nodup := by
      have hnodup := t.values.nodup
      rwa [hentries, List.map_append] at hnodup
    refine ⟨hgrows.orders, _, hentries, hkeys, hgrows.solved hentries,
      Session.counts_call hunsettled call hsize, ?_⟩
    rintro _ ⟨⟩
    exact ⟨n, hn, rfl⟩

/-- An order that fails for want of `z`, after that of `b` has ended. -/
theorem actions_keep_session_failed :
    let orders : Table Order := Table.ofList [("b", [.text "[a]*2"]), ("c", [.text "[b]+z"])]
    let s := (Session.new .standard orders (Table.ofList [("a", .int 1)])).through
      [.register "p" "http://x/"]
    let t := s.act (.call (.resolve "c"))
    (s.answer (.resolve "c")).1.toOption = none ∧ t.inProgress = [] ∧ t.values.keys = ["a", "b"] ∧
    ∃ added, t.values.entries = s.values.entries ++ added ∧
      s.Counts added.length (.call (.resolve "c")) := by
  intro orders s t
  obtain ⟨-, hidle, -, added, hentries, -, -, hcounts, -⟩ :=
    actions_keep_session .standard orders (Table.ofList [("a", .int 1)])
      [.register "p" "http://x/"] (.call (.resolve "c"))
  refine ⟨by decide +kernel, ?_, by decide +kernel, added, ?_, ?_⟩
  · unfold t s
    exact hidle
  · unfold t s
    exact hentries
  · unfold s
    exact hcounts

end FormulaGraph
