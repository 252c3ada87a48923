import FormulaGraph.Proofs.Computation.Irrelevance
import FormulaGraph.Proofs.Loading.Batches

/-! Prefixes that are registered while a store is told its triples. A call goes through all triples
again with the prefixes of its time, so that it may leave out stored ones: those whose objects have
come to stand for the same. A prefix that no object told before is written with does no harm. -/
namespace FormulaGraph

open Column (isText)

def Value.isWrittenWith (name : String) : Value → Bool
  | .text a => (Namespaces.splitPrefixed? (Text.trim a).toList).any
      (·.1 == (Namespaces.prefixName name).toList)
  | _ => false

namespace Namespaces

variable {ns : Namespaces} {name uri identifier : String}

/-- A prefix makes a difference only for what is written with it. -/
theorem extend_add (h : (splitPrefixed? identifier.toList).any
    (·.1 == (prefixName name).toList) = false) :
    (ns.add name uri).extend identifier = ns.extend identifier := by
  unfold extend
  cases hsplit : splitPrefixed? identifier.toList with
  | none => rfl
  | some parts =>
    obtain ⟨start, rest⟩ := parts
    have hother : String.ofList start ≠ prefixName name := by
      intro heq
      have hstart : start = (prefixName name).toList := by rw [← heq, String.toList_ofList]
      rw [hsplit, Option.any_some, hstart, beq_self_eq_true] at h
      contradiction
    have hget : (ns.add name uri).table.get? (String.ofList start) =
        ns.table.get? (String.ofList start) := by
      unfold add
      rw [Table.get?_insert, if_neg hother]
    dsimp only
    rw [hget]

theorem comparisonKey_add {v : Value} (h : v.isWrittenWith name = false) :
    (ns.add name uri).comparisonKey v = ns.comparisonKey v := by
  cases v with
  | text a => exact congrArg Value.text (extend_add h)
  | _ => rfl

theorem comparisonKey_of_not_isText {v : Value} (h : isText v = false) :
    ns.comparisonKey v = v := by
  cases v with
  | text a => contradiction
  | _ => rfl

end Namespaces

namespace Triple

variable {ns ns' : Namespaces} {t u : Triple}

/-- Whether two triples of one subject and one predicate have texts for objects that stand for the
same. -/
def merges (ns : Namespaces) (t u : Triple) : Bool :=
  t.subject == u.subject && t.predicate == u.predicate &&
    match t.object, u.object with
    | .text a, .text b => ns.extend (Text.trim a) == ns.extend (Text.trim b)
    | _, _ => false

theorem content_add {name uri : String} (h : t.object.isWrittenWith name = false) :
    t.content (ns.add name uri) = t.content ns := by
  unfold content
  rw [Namespaces.comparisonKey_add h]

theorem sameContent_of_merges (h : t.merges ns u = true) : t.sameContent ns u = true := by
  unfold merges at h
  simp only [Bool.and_eq_true, beq_iff_eq] at h
  obtain ⟨⟨hsubject, hpredicate⟩, hobjects⟩ := h
  split at hobjects
  · rename_i a b ha hb
    have hfull : ns.extend (Text.trim a) = ns.extend (Text.trim b) := beq_iff_eq.1 hobjects
    rw [sameContent_iff, content, content, hsubject, hpredicate, ha, hb]
    simp [Namespaces.comparisonKey, Value.display, Value.kind, hfull]
  · contradiction

/-- Triples that say the same, but have once said different things, have texts for objects. -/
theorem merges_of_sameContent (h : t.sameContent ns u = true)
    (hapart : t.sameContent ns' u = false) : t.merges ns u = true := by
  obtain ⟨hsubject, hpredicate⟩ := names_of_sameContent h
  have hkind : t.object.kind = u.object.kind := congrArg (·.2.2.1) (sameContent_iff.1 h)
  have hsaid : (ns.comparisonKey t.object).display = (ns.comparisonKey u.object).display :=
    congrArg (·.2.2.2) (sameContent_iff.1 h)
  cases ht : isText t.object with
  | true =>
    have hu : isText u.object = true := (isText_of_sameContent h).symm.trans ht
    obtain ⟨a, ha⟩ := exists_text ht
    obtain ⟨b, hb⟩ := exists_text hu
    rw [ha, hb] at hsaid
    have hfull : ns.extend (Text.trim a) = ns.extend (Text.trim b) := hsaid
    unfold merges
    rw [ha, hb]
    simp [hsubject, hpredicate, hfull]
  | false =>
    have hu : isText u.object = false := (isText_of_sameContent h).symm.trans ht
    -- what is no text says the same with all prefixes
    have hfirst : ∀ ns : Namespaces, ns.comparisonKey t.object = t.object :=
      fun _ => Namespaces.comparisonKey_of_not_isText ht
    have hsecond : ∀ ns : Namespaces, ns.comparisonKey u.object = u.object :=
      fun _ => Namespaces.comparisonKey_of_not_isText hu
    rw [hfirst, hsecond] at hsaid
    have hsame : t.sameContent ns' u = true := by
      rw [sameContent_iff, content, content, hfirst, hsecond, hsubject, hpredicate, hkind, hsaid]
    rw [hsame] at hapart
    contradiction

end Triple

namespace Store

variable {s : Store} {ns : Namespaces} {b : Batch}

theorem through_concat (s : Store) (history : List Action) (action : Action) :
    s.through (history ++ [action]) = (s.through history).act action := by
  unfold through
  rw [List.foldl_append, List.foldl_cons, List.foldl_nil]

/-- A call leaves the store as it is, or fills it further. -/
theorem load_snd_eq (hs : s.IsWritable) (b : Batch) : (s.load b).2 = s ∨
    (s.load b).2 = filled s.namespaces (s.triples ++ Triple.ofRows s.namespaces b.rows) := by
  cases hvalid : b.isValid with
  | false => exact Or.inl (load_snd_of_not_valid hvalid)
  | true =>
    rw [load_of_valid hs hvalid]
    rcases eq_or_ne (Triple.ofRows s.namespaces b.rows) [] with hnone | hnew
    · left
      rw [hnone]
      rfl
    · exact Or.inr (addAll_of_ne_nil hnew)

def Differ (ns : Namespaces) (triples : List Triple) : Prop :=
  triples.Pairwise fun t u => t.sameContent ns u = false

theorem differ_filled (ns : Namespaces) (triples : List Triple) :
    Differ ns (filled ns triples).triples := by
  unfold Differ
  rw [triples_filled]
  exact pairwise_keepFirst triples

/-- Whether no two triples of a store have come to say the same. -/
def IsClear (s : Store) : Prop := s.triples.Pairwise fun t u => t.merges s.namespaces u = false

instance (s : Store) : Decidable s.IsClear := inferInstanceAs (Decidable (List.Pairwise _ _))

/-- Whether any two triples of a store have once said different things. -/
def ToldApart (s : Store) : Prop :=
  s.triples.Pairwise fun t u => ∃ ns, t.sameContent ns u = false

theorem toldApart_empty (ns : Namespaces) : (empty ns).ToldApart := List.Pairwise.nil

theorem toldApart_act (hs : s.IsWritable) (h : s.ToldApart) (action : Action) :
    (s.act action).ToldApart := by
  cases action with
  | register name uri => exact h
  | load b =>
    rw [act_load]
    rcases load_snd_eq hs b with hsame | hfilled
    · rw [hsame]
      exact h
    · rw [hfilled]
      exact (differ_filled _ _).imp fun h => ⟨_, h⟩

/-- Whatever happens to a store, its triples have once said different things. -/
theorem toldApart_through (hs : s.IsWritable) (h : s.ToldApart) (history : List Action) :
    (s.through history).ToldApart := by
  induction history generalizing s with
  | nil => exact h
  | cons action rest ih => exact ih (isWritable_act hs action) (toldApart_act hs h action)

theorem isClear_iff (h : s.ToldApart) : s.IsClear ↔ Differ s.namespaces s.triples := by
  constructor
  · intro hclear
    refine (hclear.and h).imp ?_
    rintro t u ⟨hmerges, ns', hapart⟩
    rw [Bool.eq_false_iff] at hmerges ⊢
    exact fun hsame => hmerges (Triple.merges_of_sameContent hsame hapart)
  · intro hdiffer
    refine List.Pairwise.imp (fun {t u} hapart => ?_) hdiffer
    rw [Bool.eq_false_iff] at hapart ⊢
    exact fun hmerges => hapart (Triple.sameContent_of_merges hmerges)

/-- What a call should do: it puts triples behind those in the store, and returns their number. -/
def Appends (s : Store) (b : Batch) : Prop :=
  ∃ added, (s.load b).2.triples = s.triples ++ added ∧
    (b.isValid = true → (s.load b).1 = .ok (b.answer added.length))

/-- What is returned is the number of new triples, less that of those left out. -/
theorem load_fst_of_append (hs : s.IsWritable) {kept added : List Triple}
    (h : (s.load b).2.triples = kept ++ added) (hvalid : b.isValid = true) :
    (s.load b).1 = .ok (b.answer (added.length - (s.size - kept.length))) := by
  have hgrowth : ((s.load b).2.size : Int) - s.size = added.length - (s.size - kept.length) := by
    have hsize : (s.load b).2.size = kept.length + added.length := by
      rw [size, h, List.length_append]
    omega
  rw [← hgrowth, load_of_valid hs hvalid]

theorem appends_of_append (hs : s.IsWritable) {added : List Triple}
    (h : (s.load b).2.triples = s.triples ++ added) : s.Appends b := by
  refine ⟨added, h, fun hvalid => ?_⟩
  have hnumber : (added.length : Int) - (s.size - s.triples.length) = added.length := by
    have hsize : s.size = s.triples.length := rfl
    omega
  rw [load_fst_of_append hs h hvalid, hnumber]

/-- A call keeps of the stored triples that say the same the first, and puts others behind. -/
theorem exists_added (hs : s.IsWritable) (b : Batch) : (s.load b).2 = s ∨
    ∃ added, (s.load b).2.triples =
      keepFirst (Triple.sameContent s.namespaces) s.triples ++ added := by
  rcases load_snd_eq hs b with hsame | hfilled
  · exact Or.inl hsame
  · obtain ⟨added, hadded⟩ := keepFirst_prefix (r := Triple.sameContent s.namespaces)
      s.triples (Triple.ofRows s.namespaces b.rows)
    exact Or.inr ⟨added, by rw [hfilled, triples_filled, hadded]⟩

/-- A call keeps the triples of a store in front just if it tells nothing, is refused, or finds no
two of them that have come to say the same. -/
theorem appends_iff (hs : s.IsWritable) (h : s.ToldApart) :
    s.Appends b ↔ b.rows = [] ∨ b.isValid = false ∨ s.IsClear := by
  have hstays : (s.load b).2 = s → s.Appends b := by
    intro hsame
    have hnone : (s.load b).2.triples = s.triples ++ [] := by rw [hsame, List.append_nil]
    exact appends_of_append hs hnone
  constructor
  · rintro ⟨added, hadded, -⟩
    cases hvalid : b.isValid with
    | false => exact Or.inr (Or.inl rfl)
    | true =>
      rcases eq_or_ne b.rows [] with hnone | hsome
      · exact Or.inl hnone
      · -- a table without repetitions has no repetition in front
        have hnew := Triple.ofRows_ne_nil s.namespaces (Batch.readable hvalid) hsome
        have hdiffer : Differ s.namespaces (s.load b).2.triples := by
          rw [load_of_valid hs hvalid, addAll_of_ne_nil hnew]
          exact differ_filled _ _
        rw [hadded] at hdiffer
        have hfront : Differ s.namespaces s.triples := (List.pairwise_append.1 hdiffer).1
        exact Or.inr (Or.inr ((isClear_iff h).2 hfront))
  · rintro (hnone | hinvalid | hclear)
    · apply hstays
      have hvalid : b.isValid = true := by
        rw [Batch.isValid, hnone]
        rfl
      rw [load_of_valid hs hvalid, hnone]
      rfl
    · exact hstays (load_snd_of_not_valid hinvalid)
    · rcases exists_added hs b with hsame | ⟨added, hadded⟩
      · exact hstays hsame
      · have hkept : keepFirst (Triple.sameContent s.namespaces) s.triples = s.triples :=
          keepFirst_of_pairwise ((isClear_iff h).1 hclear)
        rw [hkept] at hadded
        exact appends_of_append hs hadded

/-- What a call does in any case: each stored triple is kept, or one is that says the same. -/
theorem exists_kept (hs : s.IsWritable) (b : Batch) :
    ∃ kept added, (s.load b).2.triples = kept ++ added ∧ kept.Sublist s.triples ∧
      (∀ t ∈ s.triples, ∃ u ∈ kept, u.sameContent s.namespaces t = true) ∧
      (b.isValid = true →
        (s.load b).1 = .ok (b.answer (added.length - (s.size - kept.length)))) := by
  rcases exists_added hs b with hsame | ⟨added, hadded⟩
  · have hadded : (s.load b).2.triples = s.triples ++ [] := by rw [hsame, List.append_nil]
    exact ⟨s.triples, [], hadded, List.Sublist.refl _,
      fun t ht => ⟨t, ht, Triple.sameContent_iff.2 rfl⟩, load_fst_of_append hs hadded⟩
  · refine ⟨_, added, hadded, keepFirst_sublist _, fun t ht => ?_, load_fst_of_append hs hadded⟩
    rcases exists_keepFirst (r := Triple.sameContent s.namespaces) ht with hmem | hrelated
    · exact ⟨t, hmem, Triple.sameContent_iff.2 rfl⟩
    · exact hrelated

/-- Whether an action tells no object that is written with the prefix of a later one. -/
def Action.precedes : Action → Action → Bool
  | .load b, .register name _ => b.rows.all fun terms => !(terms.getD 2 .missing).isWrittenWith name
  | _, _ => true

theorem exists_told {ns : Namespaces} {history : List Action} {t : Triple}
    (ht : t ∈ ((empty ns).through history).triples) :
    ∃ b, Action.load b ∈ history ∧ ∃ terms ∈ b.rows, t.object = terms.getD 2 .missing := by
  induction history using List.reverseRecOn with
  | nil => contradiction
  | append_singleton history action ih =>
    have hbefore : t ∈ ((empty ns).through history).triples →
        ∃ b, Action.load b ∈ history ++ [action] ∧
          ∃ terms ∈ b.rows, t.object = terms.getD 2 .missing := by
      intro hmem
      obtain ⟨b, hb, htold⟩ := ih hmem
      exact ⟨b, List.mem_append_left _ hb, htold⟩
    rw [through_concat] at ht
    cases action with
    | register name uri => exact hbefore ht
    | load b =>
      rw [act_load] at ht
      rcases load_snd_eq (isWritable_told ns history) b with hsame | hfilled
      · exact hbefore (hsame ▸ ht)
      · rw [hfilled, triples_filled] at ht
        rcases List.mem_append.1 (mem_of_mem_keepFirst ht) with hmem | hmem
        · exact hbefore hmem
        · obtain ⟨terms, hterms, heq⟩ := Triple.mem_ofRows.1 hmem
          exact ⟨b, by simp, terms, hterms, Triple.object_of_ofTerms heq⟩

/-- Prefixes that no object told before is written with leave all triples apart. -/
theorem differ_through {ns : Namespaces} {history : List Action}
    (h : history.Pairwise (·.precedes · = true)) :
    Differ ((empty ns).through history).namespaces ((empty ns).through history).triples := by
  induction history using List.reverseRecOn with
  | nil => exact List.Pairwise.nil
  | append_singleton history action ih =>
    obtain ⟨hhistory, -, hlast⟩ := List.pairwise_append.1 h
    have hdiffer := ih hhistory
    rw [through_concat]
    cases action with
    | load b =>
      rw [act_load]
      rcases load_snd_eq (isWritable_told ns history) b with hsame | hfilled
      · rw [hsame]
        exact hdiffer
      · rw [hfilled]
        exact differ_filled _ _
    | register name uri =>
      have hunwritten : ∀ t ∈ ((empty ns).through history).triples,
          t.object.isWrittenWith name = false := by
        intro t ht
        obtain ⟨b, hb, terms, hterms, hobject⟩ := exists_told ht
        have hprecedes := hlast _ hb _ (List.mem_singleton_self _)
        have hrow := List.all_eq_true.1 hprecedes terms hterms
        rw [hobject]
        simpa using hrow
      refine List.Pairwise.imp_of_mem (fun {t u} ht hu hapart => ?_) hdiffer
      unfold Triple.sameContent at hapart ⊢
      have hregister : ((through (empty ns) history).act (.register name uri)).namespaces =
          (through (empty ns) history).namespaces.add name uri := rfl
      rw [hregister, Triple.content_add (hunwritten t ht), Triple.content_add (hunwritten u hu)]
      exact hapart

/-- **What a call leaves of a store.** Whatever happened to a store that was empty at first, a call
puts its triples behind those in the store, and returns their number, just if it tells nothing, is
refused, or no two stored triples have come to say the same. They have not if each prefix was
registered before any object was told that is written with it. In any case a call keeps, of the
stored triples that have come to say the same, the first, and returns the growth of the store. -/
theorem appends_through_iff (ns : Namespaces) (history : List Action) (b : Batch) :
    let s := (empty ns).through history
    (s.Appends b ↔ b.rows = [] ∨ b.isValid = false ∨ s.IsClear) ∧
      (history.Pairwise (·.precedes · = true) → s.IsClear) ∧
      ∃ kept added, (s.load b).2.triples = kept ++ added ∧ kept.Sublist s.triples ∧
        (∀ t ∈ s.triples, ∃ u ∈ kept, u.sameContent s.namespaces t = true) ∧
        (b.isValid = true →
          (s.load b).1 = .ok (b.answer (added.length - (s.size - kept.length)))) := by
  intro s
  have hs : s.IsWritable := isWritable_told ns history
  have happart : s.ToldApart := toldApart_through (isWritable_empty ns) (toldApart_empty ns) history
  refine ⟨appends_iff hs happart, fun hprecedes => ?_, exists_kept hs b⟩
  exact (isClear_iff happart).2 (differ_through hprecedes)

/-- A row with an object for one subject and one predicate. -/
def remark (object : String) : List Value := [.text "http://u/s", .text "http://u/p", .text object]

/-- A prefix that is registered first, and one that nothing in the store is written with. -/
theorem appends_through_unwritten :
    let history : List Action := [.register "p" "http://u/",
      .load (.many [remark "p:a", remark "http://u/b"]), .register "q" "http://u/"]
    let s := (empty .standard).through history
    history.Pairwise (·.precedes · = true) ∧ s.size = 2 ∧
      s.Appends (.many [remark "q:a", remark "q:c"]) ∧
      (s.load (.many [remark "q:a", remark "q:c"])).1.toOption = some (some 1) := by
  intro history s
  have hprecedes : history.Pairwise (·.precedes · = true) := by decide +kernel
  obtain ⟨happends, hclear, -⟩ :=
    appends_through_iff .standard history (.many [remark "q:a", remark "q:c"])
  exact ⟨hprecedes, by decide +kernel, happends.2 (Or.inr (Or.inr (hclear hprecedes))),
    by decide +kernel⟩

/-- Two objects that a prefix makes stand for the same: whatever the next call tells, it leaves out
the second, so that a call that adds a triple returns zero, and one that adds none returns less. -/
theorem load_drops_stored :
    let s := (empty .standard).through
      [.load (.many [remark "p:a", remark "http://u/a"]), .register "p" "http://u/"]
    s.size = 2 ∧ ¬ s.Appends (.many [remark "x"]) ∧ ¬ s.Appends (.many [remark "p:a"]) ∧
      (s.load (.many [remark "x"])).2.triples.map (·.object.display) = ["p:a", "x"] ∧
      (s.load (.many [remark "x"])).1.toOption = some (some 0) ∧
      (s.load (.many [remark "p:a"])).1.toOption = some (some (-1)) := by
  intro s
  have hs : s.IsWritable := isWritable_told .standard _
  have happart : s.ToldApart :=
    toldApart_through (isWritable_empty .standard) (toldApart_empty .standard) _
  have hclear : ¬ s.IsClear := by decide +kernel
  have hloses : ∀ object, ¬ s.Appends (.many [remark object]) := by
    intro object happends
    rcases (appends_iff hs happart).1 happends with hnone | hinvalid | h
    · exact List.cons_ne_nil _ _ hnone
    · have hvalid : (Batch.many [remark object]).isValid = true := rfl
      rw [hvalid] at hinvalid
      contradiction
    · exact hclear h
  refine ⟨?_, hloses "x", hloses "p:a", ?_, ?_, ?_⟩
  all_goals decide +kernel

end Store
end FormulaGraph
