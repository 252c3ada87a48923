import FormulaGraph.Proofs.Lists
import FormulaGraph.Proofs.Query.Comparison

/-! What triples chosen for patterns bind variables to. Cells of one variable have to agree, within
a pattern and across patterns, and the first one is shown. -/
namespace FormulaGraph

/-- The cell that comes first under a name. -/
def firstUnder (bound : List (String × Value)) (name : String) : Value :=
  (bound.lookup name).getD .missing

/-- Cells under one name have equal comparison keys. -/
def Agree (ns : Namespaces) (bound : List (String × Value)) : Prop :=
  ∀ a ∈ bound, ∀ b ∈ bound, a.1 = b.1 →
    (ns.comparisonKey a.2).eq (ns.comparisonKey b.2) = true

section Agreement

variable {ns : Namespaces} {as bs : List (String × Value)} {name : String}

def Cells (ns : Namespaces) (bound : List (String × Value)) : Prop :=
  ∀ a ∈ bound, (ns.comparisonKey a.2).IsCell

theorem lookup_isSome_iff : (as.lookup name).isSome = true ↔ name ∈ as.map Prod.fst := by
  induction as with
  | nil => simp
  | cons a as ih =>
    obtain ⟨x, v⟩ := a
    by_cases h : name = x
    · subst h
      simp
    · have hbeq : (name == x) = false := by simpa using h
      simp [List.lookup, hbeq, ih, h]

theorem firstUnder_mem (h : name ∈ as.map Prod.fst) : (name, firstUnder as name) ∈ as := by
  induction as with
  | nil => simp at h
  | cons a as ih =>
    obtain ⟨x, v⟩ := a
    by_cases hx : name = x
    · subst hx
      simp [firstUnder]
    · have hbeq : (name == x) = false := by simpa using hx
      have hmem : name ∈ as.map Prod.fst := by simpa [hx] using h
      have hlookup : firstUnder ((x, v) :: as) name = firstUnder as name := by
        simp [firstUnder, List.lookup, hbeq]
      rw [hlookup]
      exact List.mem_cons_of_mem _ (ih hmem)

theorem firstUnder_append_left (h : name ∈ as.map Prod.fst) :
    firstUnder (as ++ bs) name = firstUnder as name := by
  unfold firstUnder
  obtain ⟨v, hv⟩ := Option.isSome_iff_exists.1 (lookup_isSome_iff.2 h)
  rw [List.lookup_append, hv, Option.some_or]

theorem firstUnder_append_right (h : name ∉ as.map Prod.fst) :
    firstUnder (as ++ bs) name = firstUnder bs name := by
  have hnone : as.lookup name = none := by
    rw [← Option.not_isSome_iff_eq_none, lookup_isSome_iff]
    exact h
  unfold firstUnder
  rw [List.lookup_append, hnone, Option.none_or]

theorem agree_append_iff (ha : Cells ns as) :
    Agree ns (as ++ bs) ↔ Agree ns as ∧ Agree ns bs ∧
      ∀ name ∈ as.map Prod.fst, name ∈ bs.map Prod.fst →
        (ns.comparisonKey (firstUnder as name)).eq (ns.comparisonKey (firstUnder bs name)) =
          true := by
  constructor
  · intro h
    refine ⟨fun a hma b hmb => h a (List.mem_append_left _ hma) b (List.mem_append_left _ hmb),
      fun a hma b hmb => h a (List.mem_append_right _ hma) b (List.mem_append_right _ hmb), ?_⟩
    intro name hna hnb
    exact h _ (List.mem_append_left _ (firstUnder_mem hna)) _
      (List.mem_append_right _ (firstUnder_mem hnb)) rfl
  · rintro ⟨hwithin, hwithin', hacross⟩
    have hmixed : ∀ a ∈ as, ∀ b ∈ bs, a.1 = b.1 →
        (ns.comparisonKey a.2).eq (ns.comparisonKey b.2) = true := by
      intro a hma b hmb hab
      have hna : a.1 ∈ as.map Prod.fst := List.mem_map.2 ⟨a, hma, rfl⟩
      have hnb : a.1 ∈ bs.map Prod.fst := List.mem_map.2 ⟨b, hmb, hab.symm⟩
      have hfirst := firstUnder_mem hna
      have hfirst' := firstUnder_mem hnb
      have h₁ := hwithin a hma _ hfirst rfl
      have h₂ := hacross a.1 hna hnb
      have h₃ := hwithin' _ hfirst' b hmb hab
      exact Value.eq_trans (ha a hma).hashable h₁
        (Value.eq_trans (ha _ hfirst).hashable h₂ h₃)
    intro a hma b hmb hab
    rcases List.mem_append.1 hma with ha' | hb'
    · rcases List.mem_append.1 hmb with hma' | hmb'
      · exact hwithin a ha' b hma' hab
      · exact hmixed a ha' b hmb' hab
    · rcases List.mem_append.1 hmb with hma' | hmb'
      · exact Value.eq_symm (ha b hma').hashable (hmixed b hma' a hb' hab.symm)
      · exact hwithin' a hb' b hmb' hab

end Agreement

theorem Namespaces.isCell_comparisonKey_text (ns : Namespaces) (s : String) :
    (ns.comparisonKey (.text s)).IsCell := Value.isCell_text _

namespace Pattern

variable {ns : Namespaces} {q : Pattern} {t : Triple} {done : List Pattern} {choice : List Triple}

def names (q : Pattern) : List String := q.terms.filterMap (·.var?)

/-- The variables of patterns, each where it occurs first. -/
def allVars (patterns : List Pattern) : List String := (patterns.flatMap names).eraseDups

/-- What the variables of patterns are bound to by a triple for each, from left to right. -/
def bound (patterns : List Pattern) (choice : List Triple) : List (String × Value) :=
  (patterns.zip choice).flatMap fun p => p.1.bindings p.2

/-- The row that shows the first cell of each variable. -/
def answerRow (patterns : List Pattern) (choice : List Triple) : List Value :=
  (allVars patterns).map (firstUnder (bound patterns choice))

theorem names_bindings (q : Pattern) (t : Triple) : (q.bindings t).map Prod.fst = q.names := by
  obtain ⟨s, p, o⟩ := q
  cases s <;> cases p <;> cases o <;> rfl

theorem mem_bindings {b : String × Value} : b ∈ q.bindings t ↔
    (q.subject.var? = some b.1 ∧ b.2 = t.cell 0) ∨ (q.predicate.var? = some b.1 ∧ b.2 = t.cell 1) ∨
      (q.object.var? = some b.1 ∧ b.2 = t.cell 2) := by
  have hcell : ∀ (term : PatternTerm) (cell : Value), term.var?.map (·, cell) = some b ↔
      term.var? = some b.1 ∧ b.2 = cell := by
    intro term cell
    obtain ⟨x, v⟩ := b
    rw [Option.map_eq_some_iff]
    constructor
    · rintro ⟨y, hy, heq⟩
      obtain ⟨rfl, rfl⟩ := Prod.mk.inj heq
      exact ⟨hy, rfl⟩
    · rintro ⟨hx, rfl⟩
      exact ⟨x, hx, rfl⟩
  rw [bindings, List.mem_filterMap]
  change (∃ p ∈ [(q.subject, t.cell 0), (q.predicate, t.cell 1), (q.object, t.cell 2)], _) ↔ _
  simp only [List.mem_cons, List.not_mem_nil, or_false, exists_eq_or_imp, exists_eq_left, hcell]

/-- The cells of a triple agree if those under a name in two places do. -/
theorem agree_bindings_iff (hcells : ∀ place < 3, (ns.comparisonKey (t.cell place)).IsCell) :
    Agree ns (q.bindings t) ↔
      (∀ x, q.subject.var? = some x → q.predicate.var? = some x → alike ns t (0, 1) = true) ∧
      (∀ x, q.subject.var? = some x → q.object.var? = some x → alike ns t (0, 2) = true) ∧
      ∀ x, q.predicate.var? = some x → q.object.var? = some x → alike ns t (1, 2) = true := by
  have hsubject := hcells 0 (by decide)
  have hpredicate := hcells 1 (by decide)
  have hobject := hcells 2 (by decide)
  unfold Agree alike
  simp only [mem_bindings]
  generalize t.cell 0 = a at hsubject ⊢
  generalize t.cell 1 = b at hpredicate ⊢
  generalize t.cell 2 = c at hobject ⊢
  constructor
  · intro h
    refine ⟨fun x hs hp => ?_, fun x hs ho => ?_, fun x hp ho => ?_⟩
    · exact h (x, b) (.inr (.inl ⟨hp, rfl⟩)) (x, a) (.inl ⟨hs, rfl⟩) rfl
    · exact h (x, c) (.inr (.inr ⟨ho, rfl⟩)) (x, a) (.inl ⟨hs, rfl⟩) rfl
    · exact h (x, c) (.inr (.inr ⟨ho, rfl⟩)) (x, b) (.inr (.inl ⟨hp, rfl⟩)) rfl
  · rintro ⟨hsp, hso, hpo⟩ ⟨x, v⟩ hv ⟨y, w⟩ hw hxy
    dsimp only at hv hw hxy ⊢
    subst hxy
    rcases hv with ⟨hx, rfl⟩ | ⟨hx, rfl⟩ | ⟨hx, rfl⟩
    · rcases hw with ⟨hy, rfl⟩ | ⟨hy, rfl⟩ | ⟨hy, rfl⟩
      · exact hsubject.self
      · exact Value.eq_symm hpredicate.hashable (hsp _ hx hy)
      · exact Value.eq_symm hobject.hashable (hso _ hx hy)
    · rcases hw with ⟨hy, rfl⟩ | ⟨hy, rfl⟩ | ⟨hy, rfl⟩
      · exact hsp _ hy hx
      · exact hpredicate.self
      · exact Value.eq_symm hobject.hashable (hpo _ hx hy)
    · rcases hw with ⟨hy, rfl⟩ | ⟨hy, rfl⟩ | ⟨hy, rfl⟩
      · exact hso _ hy hx
      · exact hpo _ hy hx
      · exact hobject.self

/-- Of three places with one name, the first is compared with each of the others only. -/
theorem alike_of_alike (hcells : ∀ place < 3, (ns.comparisonKey (t.cell place)).IsCell)
    (hsp : alike ns t (0, 1) = true) (hso : alike ns t (0, 2) = true) : alike ns t (1, 2) = true :=
  Value.eq_trans (hcells 2 (by decide)).hashable hso
    (Value.eq_symm (hcells 1 (by decide)).hashable hsp)

theorem isSome_and_beq_iff {x y : Option String} :
    (y.isSome && x == y) = true ↔ ∃ name, x = some name ∧ y = some name := by
  rw [Bool.and_eq_true, Option.isSome_iff_exists, beq_iff_eq]
  exact ⟨fun ⟨⟨name, hy⟩, hx⟩ => ⟨name, hx.trans hy, hy⟩,
    fun ⟨name, hx, hy⟩ => ⟨⟨name, hy⟩, hx.trans hy.symm⟩⟩

/-- Where a pattern repeats a variable, its cells have to agree. -/
theorem all_alike_iff (hobject : (ns.comparisonKey t.object).IsCell) :
    q.repetitions.all (alike ns t) = true ↔ Agree ns (q.bindings t) := by
  have hcells : ∀ place < 3, (ns.comparisonKey (t.cell place)).IsCell := by
    intro place hplace
    obtain rfl | rfl | rfl : place = 0 ∨ place = 1 ∨ place = 2 := by omega
    · exact ns.isCell_comparisonKey_text t.subject
    · exact ns.isCell_comparisonKey_text t.predicate
    · exact hobject
  have hterms : q.terms.map PatternTerm.var? = [q.subject.var?, q.predicate.var?, q.object.var?] := rfl
  rw [agree_bindings_iff hcells, repetitions, hterms]
  dsimp only
  split
  · rename_i hsp
    obtain ⟨x, hs, hp⟩ := isSome_and_beq_iff.1 hsp
    rw [hs, hp]
    split
    · rename_i ho
      rw [eq_of_beq ho]
      simp only [List.all_cons, List.all_nil, Bool.and_true, Bool.and_eq_true]
      refine ⟨fun h => ⟨fun _ _ _ => h.1, fun _ _ _ => h.2, fun _ _ _ => ?_⟩,
        fun h => ⟨h.1 x rfl rfl, h.2.1 x rfl rfl⟩⟩
      exact alike_of_alike hcells h.1 h.2
    · rename_i ho
      have hother : ∀ y, some x = some y → q.object.var? ≠ some y := fun y hy hoy =>
        ho (beq_iff_eq.2 (hoy.trans hy.symm))
      simp only [List.all_cons, List.all_nil, Bool.and_true]
      exact ⟨fun h => ⟨fun _ _ _ => h, fun y hy hoy => absurd hoy (hother y hy),
        fun y hy hoy => absurd hoy (hother y hy)⟩, fun h => h.1 x rfl rfl⟩
  · rename_i hsp
    have hsp' : ∀ x, q.subject.var? = some x → q.predicate.var? ≠ some x := fun x hs hp =>
      hsp (isSome_and_beq_iff.2 ⟨x, hs, hp⟩)
    split
    · rename_i hso
      obtain ⟨x, hs, ho⟩ := isSome_and_beq_iff.1 hso
      have hp := hsp' x hs
      rw [hs, ho]
      simp only [List.all_cons, List.all_nil, Bool.and_true]
      refine ⟨fun h => ⟨fun y hy hpy => ?_, fun _ _ _ => h, fun y hpy hy => ?_⟩, fun h => h.2.1 x rfl rfl⟩
      · exact absurd (hpy.trans hy.symm) hp
      · exact absurd (hpy.trans hy.symm) hp
    · rename_i hso
      have hso' : ∀ x, q.subject.var? = some x → q.object.var? ≠ some x := fun x hs ho =>
        hso (isSome_and_beq_iff.2 ⟨x, hs, ho⟩)
      split
      · rename_i hpo
        obtain ⟨x, hp, ho⟩ := isSome_and_beq_iff.1 hpo
        simp only [List.all_cons, List.all_nil, Bool.and_true]
        exact ⟨fun h => ⟨fun y hy hpy => absurd hpy (hsp' y hy), fun y hy hoy => absurd hoy (hso' y hy),
          fun _ _ _ => h⟩, fun h => h.2.2 x hp ho⟩
      · rename_i hpo
        have hpo' : ∀ x, q.predicate.var? = some x → q.object.var? ≠ some x := fun x hp ho =>
          hpo (isSome_and_beq_iff.2 ⟨x, hp, ho⟩)
        exact ⟨fun _ => ⟨fun y hy hpy => absurd hpy (hsp' y hy), fun y hy hoy => absurd hoy (hso' y hy),
          fun y hy hoy => absurd hoy (hpo' y hy)⟩, fun _ => rfl⟩

theorem bound_concat (h : done.length = choice.length) (q : Pattern) (t : Triple) :
    bound (done ++ [q]) (choice ++ [t]) = bound done choice ++ q.bindings t := by
  unfold bound
  rw [List.zip_append h, List.flatMap_append]
  simp

theorem names_bound (h : done.length = choice.length) :
    (bound done choice).map Prod.fst = done.flatMap names := by
  induction done generalizing choice with
  | nil => rfl
  | cons q done ih => cases choice with
    | nil => simp at h
    | cons t choice =>
      have hrest := ih (Nat.succ.inj h)
      unfold bound at hrest ⊢
      rw [List.zip_cons_cons, List.flatMap_cons, List.map_append, hrest, names_bindings]
      rfl

theorem mem_allVars {name : String} : name ∈ allVars done ↔ name ∈ done.flatMap names :=
  List.mem_eraseDups

theorem allVars_concat (done : List Pattern) (q : Pattern) :
    allVars (done ++ [q]) = allVars done ++ q.vars.filter (!(allVars done).contains ·) := by
  have hcontains : ∀ name, (allVars done).contains name = (done.flatMap names).contains name := by
    intro name
    rw [Bool.eq_iff_iff, List.contains_iff_mem, List.contains_iff_mem, mem_allVars]
  have hflat : (done ++ [q]).flatMap names = done.flatMap names ++ q.names := by simp
  unfold allVars at hcontains ⊢
  rw [hflat, eraseDups_append_filter]
  simp only [hcontains]
  rfl

/-- One more pattern adds the cells of its new variables. -/
theorem answerRow_concat (h : done.length = choice.length) (q : Pattern) (t : Triple) :
    answerRow (done ++ [q]) (choice ++ [t]) = answerRow done choice ++
      (q.vars.filter (!(allVars done).contains ·)).map (firstUnder (q.bindings t)) := by
  have hnames := names_bound h
  unfold answerRow
  rw [allVars_concat, List.map_append, bound_concat h]
  congr 1
  · refine List.map_congr_left fun x hx => firstUnder_append_left ?_
    rwa [hnames, ← mem_allVars]
  · refine List.map_congr_left fun x hx => firstUnder_append_right ?_
    have hnew := (List.mem_filter.1 hx).2
    rw [hnames, ← mem_allVars]
    simpa using hnew

end Pattern

end FormulaGraph
