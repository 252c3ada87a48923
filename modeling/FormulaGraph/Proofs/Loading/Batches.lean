import FormulaGraph.Proofs.Computation.Filling

/-! Telling a store its triples, one by one or many at once. How they are split makes no difference:
the store holds the triples that said something new where they were told. A call is refused for a row
that is no triple and for a value that cannot be written, before anything is stored. -/
namespace FormulaGraph

namespace Triple

variable {ns : Namespaces} {terms : List Value} {rows : List (List Value)}

/-- Why a row cannot be read as a triple, if it cannot. -/
def fault? : List Value → Option StoreError
  | [subject, predicate, _] =>
    if subject.isWritable && predicate.isWritable then none else some .longInteger
  | terms => some (if Value.areWritable terms then .tripleArity terms else .longInteger)

def isValid (terms : List Value) : Bool := terms.length == 3 && Value.areWritable terms

theorem readName_of_isWritable {v : Value} (h : v.isWritable = true) :
    readName ns v = .ok (ns.extend (Text.trim v.display)) := if_pos h

theorem readName_of_not_isWritable {v : Value} (h : v.isWritable = false) :
    readName ns v = .error .longInteger := if_neg (Bool.eq_false_iff.1 h)

theorem ofTerms_three (ns : Namespaces) (subject predicate object : Value) :
    ofTerms ns [subject, predicate, object] =
      (do return ⟨← readName ns subject, ← readName ns predicate, object⟩) := rfl

theorem ofTerms_eq_error {cause : StoreError} (h : fault? terms = some cause) :
    ofTerms ns terms = .error cause := by
  unfold fault? at h
  split at h
  · rename_i subject predicate object
    split at h
    · contradiction
    rename_i hnot
    obtain rfl := Option.some.inj h
    rw [ofTerms_three]
    cases hsubject : subject.isWritable with
    | false => rw [readName_of_not_isWritable hsubject]; rfl
    | true =>
      have hpredicate : predicate.isWritable = false := by simpa [hsubject] using hnot
      rw [readName_of_isWritable hsubject, readName_of_not_isWritable hpredicate]
      rfl
  · rename_i hlength
    unfold ofTerms
    split
    · exact absurd rfl (hlength _ _ _)
    · exact congrArg Except.error (Option.some.inj h)

theorem exists_ofTerms (ns : Namespaces) (h : fault? terms = none) :
    ∃ t, ofTerms ns terms = .ok t ∧ t.object = terms.getD 2 .missing := by
  unfold fault? at h
  split at h
  · rename_i subject predicate object
    have hboth : (subject.isWritable && predicate.isWritable) = true := by
      by_contra hnot
      rw [if_neg hnot] at h
      contradiction
    obtain ⟨hsubject, hpredicate⟩ := Bool.and_eq_true_iff.1 hboth
    refine ⟨⟨ns.extend (Text.trim subject.display), ns.extend (Text.trim predicate.display),
      object⟩, ?_, rfl⟩
    rw [ofTerms_three, readName_of_isWritable hsubject, readName_of_isWritable hpredicate]
    rfl
  · contradiction

theorem object_of_ofTerms {t : Triple} (h : ofTerms ns terms = .ok t) :
    t.object = terms.getD 2 .missing := by
  cases hfault : fault? terms with
  | some cause =>
    rw [ofTerms_eq_error hfault] at h
    contradiction
  | none =>
    obtain ⟨u, hu, hobject⟩ := exists_ofTerms ns hfault
    obtain rfl := Except.ok.inj (hu.symm.trans h)
    exact hobject

theorem isValid_iff : isValid terms = true ↔
    fault? terms = none ∧ (terms.getD 2 .missing).isWritable = true := by
  unfold isValid fault?
  split
  · rename_i subject predicate object
    cases hs : subject.isWritable <;> cases hp : predicate.isWritable <;>
      simp [Value.areWritable, hs, hp]
  · rename_i hlength
    have hne : (terms.length == 3) = false := by
      rw [beq_eq_false_iff_ne]
      intro heq
      obtain ⟨subject, predicate, object, rfl⟩ := List.length_eq_three.1 heq
      exact hlength subject predicate object rfl
    simp [hne]

def ofRows (ns : Namespaces) (rows : List (List Value)) : List Triple :=
  rows.filterMap fun terms => (ofTerms ns terms).toOption

theorem mem_ofRows {t : Triple} :
    t ∈ ofRows ns rows ↔ ∃ terms ∈ rows, ofTerms ns terms = .ok t := by
  unfold ofRows
  rw [List.mem_filterMap]
  refine exists_congr fun terms => and_congr_right fun _ => ?_
  cases ofTerms ns terms <;> simp [Except.toOption]

theorem mapM_ofTerms (h : ∀ terms ∈ rows, fault? terms = none) :
    rows.mapM (ofTerms ns) = .ok (ofRows ns rows) := by
  induction rows with
  | nil => rfl
  | cons terms rest ih =>
    obtain ⟨hterms, hrest⟩ := List.forall_mem_cons.1 h
    obtain ⟨t, ht, -⟩ := exists_ofTerms ns hterms
    have hcons : ofRows ns (terms :: rest) = t :: ofRows ns rest :=
      List.filterMap_cons_some (by rw [ht]; rfl)
    rw [List.mapM_cons, ht, ih hrest, hcons]
    rfl

/-- The first row that is no triple is what is complained of. -/
theorem mapM_ofTerms_of_fault {cause : StoreError} (h : rows.findSome? fault? = some cause) :
    rows.mapM (ofTerms ns) = .error cause := by
  induction rows with
  | nil => contradiction
  | cons row rest ih =>
    rw [List.findSome?_cons] at h
    rw [List.mapM_cons]
    split at h
    · rename_i hrow
      obtain rfl := Option.some.inj h
      rw [ofTerms_eq_error hrow]
      rfl
    · rename_i hrow
      obtain ⟨t, ht, -⟩ := exists_ofTerms ns hrow
      rw [ht, ih h]
      rfl

theorem ofRows_ne_nil (ns : Namespaces) (h : ∀ terms ∈ rows, fault? terms = none)
    (hne : rows ≠ []) : ofRows ns rows ≠ [] := by
  obtain ⟨terms, hterms⟩ := List.exists_mem_of_ne_nil rows hne
  obtain ⟨t, ht, -⟩ := exists_ofTerms ns (h terms hterms)
  exact List.ne_nil_of_mem (mem_ofRows.2 ⟨terms, hterms, ht⟩)

theorem isWritable_of_mem_ofRows (h : ∀ terms ∈ rows, isValid terms = true) {t : Triple}
    (ht : t ∈ ofRows ns rows) : t.object.isWritable = true := by
  obtain ⟨terms, hterms, heq⟩ := mem_ofRows.1 ht
  rw [object_of_ofTerms heq]
  exact (isValid_iff.1 (h terms hterms)).2

/-- The triples that say something new where they are told: what none told before them says. -/
def firsts (ns : Namespaces) (told : List Triple) : List Triple :=
  (told.zipIdx.filter fun p => !(told.take p.2).any (sameContent ns · p.1)).map Prod.fst

end Triple

/-- A call that tells a store triples: a single one, or many at once. -/
inductive Batch where
  | one (terms : List Value)
  | many (rows : List (List Value))

namespace Batch

def rows : Batch → List (List Value)
  | one terms => [terms]
  | many rows => rows

def isValid (b : Batch) : Bool := b.rows.all Triple.isValid

/-- Why a batch is refused, if it is: for its first row that is no triple, else for an object that
cannot be written. -/
def fault? (b : Batch) : Option StoreError :=
  (b.rows.findSome? Triple.fault?).or (if b.isValid then none else some .longInteger)

/-- What a call returns that has made a store grow: by how many triples, if it tells many. -/
def answer : Batch → Int → Option Int
  | one _, _ => none
  | many _, growth => some growth

variable {b : Batch}

theorem isValid_iff : b.isValid = true ↔ ∀ terms ∈ b.rows, Triple.isValid terms = true :=
  List.all_eq_true

theorem readable (h : b.isValid = true) : ∀ terms ∈ b.rows, Triple.fault? terms = none :=
  fun terms hterms => (Triple.isValid_iff.1 (isValid_iff.1 h terms hterms)).1

theorem fault?_eq_none_iff : b.fault? = none ↔ b.isValid = true := by
  unfold fault?
  rw [Option.or_eq_none_iff]
  constructor
  · rintro ⟨-, h⟩
    by_contra hnot
    rw [if_neg hnot] at h
    contradiction
  · exact fun h => ⟨List.findSome?_eq_none_iff.2 (readable h), if_pos h⟩

theorem exists_fault (h : b.isValid = false) : ∃ cause, b.fault? = some cause := by
  rw [← Option.isSome_iff_exists, ← Option.ne_none_iff_isSome, ne_eq, fault?_eq_none_iff, h]
  exact Bool.false_ne_true

end Batch

namespace Store

variable {s : Store} {new more : List Triple}

def IsWritable (s : Store) : Prop := ∀ t ∈ s.triples, t.object.isWritable = true

theorem IsWritable.addAll (hs : s.IsWritable) (hnew : ∀ t ∈ new, t.object.isWritable = true) :
    (s.addAll new).IsWritable := by
  intro t ht
  rcases eq_or_ne new [] with rfl | hne
  · exact hs t ht
  · rw [addAll_of_ne_nil hne, triples_filled] at ht
    exact (List.mem_append.1 (mem_of_mem_keepFirst ht)).elim (hs t) (hnew t)

theorem addTriples_of_valid (hs : s.IsWritable) {rows : List (List Value)}
    (h : ∀ terms ∈ rows, Triple.isValid terms = true) :
    s.addTriples rows = (.ok ((s.addAll (Triple.ofRows s.namespaces rows)).size - s.size),
      s.addAll (Triple.ofRows s.namespaces rows)) := by
  have hread : rows.mapM (Triple.ofTerms s.namespaces) = .ok (Triple.ofRows s.namespaces rows) :=
    Triple.mapM_ofTerms fun terms hterms => (Triple.isValid_iff.1 (h terms hterms)).1
  refine addTriples_of_mapM hread fun t ht => ?_
  exact (List.mem_append.1 ht).elim (hs t) (Triple.isWritable_of_mem_ofRows h)

theorem addTriples_of_fault {b : Batch} {cause : StoreError} (h : b.fault? = some cause) :
    s.addTriples b.rows = (.error cause, s) := by
  rw [addTriples_eq]
  unfold Batch.fault? at h
  cases hrow : b.rows.findSome? Triple.fault? with
  | some fault =>
    rw [hrow, Option.some_or] at h
    rw [Triple.mapM_ofTerms_of_fault hrow, Option.some.inj h]
  | none =>
    -- every row is a triple, but not every object can be written
    rw [hrow, Option.none_or] at h
    have hread := List.findSome?_eq_none_iff.1 hrow
    split at h
    · contradiction
    rename_i hinvalid
    obtain rfl := Option.some.inj h
    obtain ⟨terms, hterms, hlong⟩ : ∃ terms ∈ b.rows, Triple.isValid terms = false := by
      rw [Batch.isValid, Bool.not_eq_true] at hinvalid
      simpa using hinvalid
    obtain ⟨t, ht, hobject⟩ := Triple.exists_ofTerms s.namespaces (hread terms hterms)
    have hmem : t ∈ Triple.ofRows s.namespaces b.rows := Triple.mem_ofRows.2 ⟨terms, hterms, ht⟩
    rw [Triple.mapM_ofTerms hread]
    refine if_neg ?_
    rintro (hnone | hall)
    · exact List.not_mem_nil (hnone ▸ hmem)
    · have hobjects := hall t (List.mem_append_right _ hmem)
      rw [hobject] at hobjects
      rw [Triple.isValid_iff.2 ⟨hread terms hterms, hobjects⟩] at hlong
      contradiction

/-- What a call returns, and the store that it leaves. -/
def load (s : Store) : Batch → Except StoreError (Option Int) × Store
  | .one terms => ((s.add terms).1.map fun _ => none, (s.add terms).2)
  | .many rows => ((s.addTriples rows).1.map some, (s.addTriples rows).2)

/-- What can happen to a store: a call that tells it triples, or the registration of a prefix. -/
inductive Action where
  | load (b : Batch)
  | register (name uri : String)

def act (s : Store) : Action → Store
  | .load b => (s.load b).2
  | .register name uri => s.addPrefix name uri

theorem act_load (s : Store) (b : Batch) : s.act (.load b) = (s.load b).2 := rfl

def through (s : Store) (history : List Action) : Store := history.foldl act s

theorem load_eq (s : Store) (b : Batch) :
    s.load b = ((s.addTriples b.rows).1.map b.answer, (s.addTriples b.rows).2) := by
  cases b with
  | one terms =>
    rw [load, add_eq, Batch.rows]
    cases (s.addTriples [terms]).1 <;> rfl
  | many rows => rfl

theorem load_of_valid (hs : s.IsWritable) {b : Batch} (h : b.isValid = true) :
    s.load b = (.ok (b.answer ((s.addAll (Triple.ofRows s.namespaces b.rows)).size - s.size)),
      s.addAll (Triple.ofRows s.namespaces b.rows)) := by
  rw [load_eq, addTriples_of_valid hs (Batch.isValid_iff.1 h)]
  rfl

theorem load_of_fault {b : Batch} {cause : StoreError} (h : b.fault? = some cause) :
    s.load b = (.error cause, s) := by
  rw [load_eq, addTriples_of_fault h]
  rfl

theorem load_snd_of_not_valid {b : Batch} (h : b.isValid = false) : (s.load b).2 = s := by
  obtain ⟨cause, hcause⟩ := Batch.exists_fault h
  rw [load_of_fault hcause]

theorem isWritable_load (hs : s.IsWritable) (b : Batch) : (s.load b).2.IsWritable := by
  cases hvalid : b.isValid with
  | false =>
    rw [load_snd_of_not_valid hvalid]
    exact hs
  | true =>
    rw [load_of_valid hs hvalid]
    exact hs.addAll fun t => Triple.isWritable_of_mem_ofRows (Batch.isValid_iff.1 hvalid)

theorem isWritable_act (hs : s.IsWritable) (action : Action) : (s.act action).IsWritable := by
  cases action with
  | load b => exact isWritable_load hs b
  | register name uri => exact hs

theorem isWritable_through (hs : s.IsWritable) (history : List Action) :
    (s.through history).IsWritable := by
  induction history generalizing s with
  | nil => exact hs
  | cons action rest ih => exact ih (isWritable_act hs action)

theorem isWritable_empty (ns : Namespaces) : (empty ns).IsWritable := by simp [IsWritable, empty]

/-- Whatever happens to a store that is empty at first, its objects can be written. -/
theorem isWritable_told (ns : Namespaces) (history : List Action) :
    ((empty ns).through history).IsWritable :=
  isWritable_through (isWritable_empty ns) history

end Store
end FormulaGraph
