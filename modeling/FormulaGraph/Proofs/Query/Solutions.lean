import FormulaGraph.Proofs.Query.Bindings
import FormulaGraph.Proofs.Query.Join

/-! The answer to a query has one row for each way to choose a stored triple for every pattern,
such that constants match and the cells of one variable have equal keys. -/
namespace FormulaGraph

open Pattern

/-- A choice of one stored triple for every pattern that has its constants, such that the cells of
one variable have equal comparison keys. -/
structure Store.Solves (s : Store) (patterns : List Pattern) (choice : List Triple) : Prop where
  stored : List.Forall₂ (fun q t => t ∈ s.triples ∧ q.admits s.namespaces t = true) patterns choice
  agree : Agree s.namespaces (bound patterns choice)

namespace Store

variable {s : Store} {patterns done : List Pattern} {choice : List Triple} {q : Pattern}

def Comparable (s : Store) (cell : Value → Prop) : Prop :=
  ∀ t ∈ s.triples, cell (s.namespaces.comparisonKey t.object)

def matched (s : Store) (q : Pattern) : List Triple :=
  s.triples.filter fun t => q.admits s.namespaces t && q.repetitions.all (alike s.namespaces t)

variable {c : Comparer} {cell constant : Value → Prop}

theorem cells_bindings (hc : c.ByEquality cell constant) (hs : s.Comparable cell) {t : Triple}
    (ht : t ∈ s.triples) (q : Pattern) :
    ∀ b ∈ q.bindings t, cell (s.namespaces.comparisonKey b.2) := by
  intro b hb
  rcases mem_bindings.1 hb with ⟨-, h⟩ | ⟨-, h⟩ | ⟨-, h⟩
  · rw [h]
    exact hc.text _
  · rw [h]
    exact hc.text _
  · rw [h]
    exact hs t ht

theorem mem_matched_iff (hc : c.ByEquality cell constant) (hs : s.Comparable cell) {t : Triple} :
    t ∈ s.matched q ↔
      t ∈ s.triples ∧ q.admits s.namespaces t = true ∧ Agree s.namespaces (q.bindings t) := by
  unfold matched
  rw [List.mem_filter, Bool.and_eq_true]
  refine and_congr_right fun ht => and_congr_right fun _ => ?_
  exact all_alike_iff (hc.isCell _ (hs t ht))

theorem Solves.length_eq (h : s.Solves patterns choice) : patterns.length = choice.length :=
  h.stored.length_eq

theorem Solves.cells (hc : c.ByEquality cell constant) (hs : s.Comparable cell)
    (h : s.Solves patterns choice) :
    ∀ b ∈ bound patterns choice, cell (s.namespaces.comparisonKey b.2) := by
  intro b hb
  obtain ⟨p, hp, hpb⟩ := List.mem_flatMap.1 hb
  exact cells_bindings hc hs ((List.forall₂_iff_zip.1 h.stored).2 hp).1 p.1 b hpb

/-- One more pattern is solved by a triple that matches it and agrees with what is bound before. -/
theorem solves_concat_iff (hc : c.ByEquality cell constant) (hs : s.Comparable cell) :
    s.Solves (done ++ [q]) choice ↔ ∃ before t, choice = before ++ [t] ∧ s.Solves done before ∧
      t ∈ s.matched q ∧ ∀ name ∈ q.vars, name ∈ allVars done →
        (s.namespaces.comparisonKey (firstUnder (bound done before) name)).eq
          (s.namespaces.comparisonKey (firstUnder (q.bindings t) name)) = true := by
  have hmem : ∀ {before : List Triple} {t : Triple} {name : String}, done.length = before.length →
      ((name ∈ (bound done before).map Prod.fst ↔ name ∈ allVars done) ∧
        (name ∈ (q.bindings t).map Prod.fst ↔ name ∈ q.vars)) := by
    intro before t name h
    rw [names_bound h, mem_allVars, names_bindings]
    exact ⟨Iff.rfl, List.mem_eraseDups.symm⟩
  constructor
  · rintro ⟨hstored, hagree⟩
    obtain ⟨before, t, rfl, hbefore, ht, hadmits⟩ := forall₂_concat_iff.1 hstored
    have hlength := hbefore.length_eq
    have hcells : Cells s.namespaces (bound done before) := by
      intro b hb
      obtain ⟨p, hp, hpb⟩ := List.mem_flatMap.1 hb
      have hstored := ((List.forall₂_iff_zip.1 hbefore).2 hp).1
      exact hc.isCell _ (cells_bindings hc hs hstored p.1 b hpb)
    rw [bound_concat hlength] at hagree
    obtain ⟨hdone, hself, hacross⟩ := (agree_append_iff hcells).1 hagree
    refine ⟨before, t, rfl, ⟨hbefore, hdone⟩, (mem_matched_iff hc hs).2 ⟨ht, hadmits, hself⟩, ?_⟩
    intro name hname hbound
    exact hacross name ((hmem (t := t) hlength).1.2 hbound) ((hmem hlength).2.2 hname)
  · rintro ⟨before, t, rfl, hbefore, ht, hacross⟩
    obtain ⟨htriple, hadmits, hself⟩ := (mem_matched_iff hc hs).1 ht
    have hlength := hbefore.length_eq
    have hcells : Cells s.namespaces (bound done before) := fun b hb =>
      hc.isCell _ (hbefore.cells hc hs b hb)
    refine ⟨forall₂_concat_iff.2 ⟨before, t, rfl, hbefore.stored, htriple, hadmits⟩, ?_⟩
    rw [bound_concat hlength]
    refine (agree_append_iff hcells).2 ⟨hbefore.agree, hself, fun name hbound hname => ?_⟩
    exact hacross name ((hmem hlength).2.1 hname) ((hmem (t := t) hlength).1.1 hbound)

/-- A sheet that answers patterns: a row for each choice of triples that solves them. -/
structure Answers (s : Store) (patterns : List Pattern) (sheet : Sheet) : Prop where
  columns : sheet.columns = allVars patterns
  rows : ∀ row, row ∈ sheet.rows ↔ ∃ choice, s.Solves patterns choice ∧ row = answerRow patterns choice

theorem Answers.ground (hc : c.ByEquality cell constant) (hs : s.Comparable cell) {sheet : Sheet}
    (h : s.Answers done sheet) (hq : q.vars = []) (hmatched : s.matched q ≠ []) :
    s.Answers (done ++ [q]) sheet := by
  obtain ⟨t, ht⟩ := List.exists_mem_of_ne_nil _ hmatched
  refine ⟨?_, fun row => ?_⟩
  · rw [h.columns, allVars_concat, hq, List.filter_nil, List.append_nil]
  · rw [h.rows]
    constructor
    · rintro ⟨choice, hchoice, rfl⟩
      refine ⟨choice ++ [t], (solves_concat_iff hc hs).2 ⟨choice, t, rfl, hchoice, ht, ?_⟩, ?_⟩
      · rw [hq]
        simp
      · rw [answerRow_concat hchoice.length_eq, hq]
        simp
    · rintro ⟨choice, hchoice, rfl⟩
      obtain ⟨before, t, rfl, hbefore, -, -⟩ := (solves_concat_iff hc hs).1 hchoice
      refine ⟨before, hbefore, ?_⟩
      rw [answerRow_concat hbefore.length_eq, hq]
      simp

theorem Answers.tidy (hc : c.ByEquality cell constant) (hs : s.Comparable cell) {sheet : Sheet}
    (h : s.Answers patterns sheet) : sheet.Tidy s.namespaces cell where
  nodup := by
    rw [h.columns]
    exact nodup_eraseDups _
  length row hrow := by
    obtain ⟨choice, -, rfl⟩ := (h.rows row).1 hrow
    rw [h.columns, answerRow, List.length_map]
  cells row hrow v hv := by
    obtain ⟨choice, hchoice, rfl⟩ := (h.rows row).1 hrow
    obtain ⟨x, hx, rfl⟩ := List.mem_map.1 hv
    refine hchoice.cells hc hs _ (firstUnder_mem ?_)
    rwa [names_bound hchoice.length_eq, ← mem_allVars]

theorem regular_sheet (q : Pattern) (triples : List Triple) : (q.sheet triples).Regular where
  nodup := nodup_eraseDups _
  length row hrow := by
    obtain ⟨t, -, rfl⟩ := List.mem_map.1 hrow
    exact List.length_map _

theorem tidy_sheet (hc : c.ByEquality cell constant) (hs : s.Comparable cell) (q : Pattern) :
    (q.sheet (s.matched q)).Tidy s.namespaces cell where
  nodup := (regular_sheet q _).nodup
  length := (regular_sheet q _).length
  cells row hrow v hv := by
    obtain ⟨t, ht, rfl⟩ := List.mem_map.1 hrow
    obtain ⟨x, hx, rfl⟩ := List.mem_map.1 hv
    refine cells_bindings hc hs ((mem_matched_iff hc hs).1 ht).1 q _ (firstUnder_mem ?_)
    rw [names_bindings]
    exact List.mem_eraseDups.1 hx

/-- The first pattern with variables is answered by the triples that match it. -/
theorem answers_first (hc : c.ByEquality cell constant) (hs : s.Comparable cell)
    (hdone : allVars done = []) (hsolved : ∃ choice, s.Solves done choice) (q : Pattern) :
    s.Answers (done ++ [q]) (q.sheet (s.matched q)) := by
  refine ⟨?_, fun row => ?_⟩
  · rw [allVars_concat, hdone]
    simp [sheet]
  · have hrow : ∀ before t, done.length = before.length →
        answerRow (done ++ [q]) (before ++ [t]) = q.row t := by
      intro before t hlength
      rw [answerRow_concat hlength, answerRow, hdone]
      simp only [List.map_nil, List.nil_append, List.contains_nil, Bool.not_false,
        List.filter_true]
      rfl
    constructor
    · intro hmem
      obtain ⟨t, ht, rfl⟩ := List.mem_map.1 hmem
      obtain ⟨before, hbefore⟩ := hsolved
      refine ⟨before ++ [t], (solves_concat_iff hc hs).2 ⟨before, t, rfl, hbefore, ht, ?_⟩,
        (hrow _ _ hbefore.length_eq).symm⟩
      rw [hdone]
      simp
    · rintro ⟨choice, hchoice, rfl⟩
      obtain ⟨before, t, rfl, hbefore, ht, -⟩ := (solves_concat_iff hc hs).1 hchoice
      rw [hrow _ _ hbefore.length_eq]
      exact List.mem_map_of_mem ht

theorem rowsAgree_map_iff {names : List String} {f g : String → Value}
    (hf : ∀ x ∈ names, (f x).IsCell) :
    Sheet.rowsAgree (names.map f) (names.map g) = true ↔ ∀ x ∈ names, (f x).eq (g x) = true := by
  induction names with
  | nil => simp [Sheet.rowsAgree]
  | cons x names ih =>
    rw [List.map_cons, List.map_cons, Sheet.rowsAgree, Bool.and_eq_true,
      (hf x List.mem_cons_self).agrees, ih fun y hy => hf y (List.mem_cons_of_mem _ hy),
      List.forall_mem_cons]

/-- The keys of an answer's rows agree with those of a matching triple where what they bind does. -/
theorem rowsAgree_keysAt_iff (hc : c.ByEquality cell constant) (hs : s.Comparable cell)
    {rows : List (List Value)} {choice : List Triple} (hchoice : s.Solves done choice)
    (q : Pattern) (triples : List Triple) (t : Triple) :
    let left : Sheet := ⟨allVars done, rows⟩
    let right := q.sheet triples
    Sheet.rowsAgree (left.keysAt s.namespaces (left.shared right) (answerRow done choice))
        (right.keysAt s.namespaces (left.shared right) (q.row t)) = true ↔
      ∀ name ∈ q.vars, name ∈ allVars done →
        (s.namespaces.comparisonKey (firstUnder (bound done choice) name)).eq
          (s.namespaces.comparisonKey (firstUnder (q.bindings t) name)) = true := by
  intro left right
  have hshared : ∀ x, x ∈ left.shared right ↔ x ∈ q.vars ∧ x ∈ allVars done := by
    intro x
    rw [Sheet.shared, List.mem_filter, List.contains_iff_mem]
    exact Iff.rfl
  have hl : left.keysAt s.namespaces (left.shared right) (answerRow done choice) =
      (left.shared right).map fun x =>
        s.namespaces.comparisonKey (firstUnder (bound done choice) x) :=
    List.map_congr_left fun x hx =>
      congrArg _ (Sheet.value_map (((hshared x).1 hx).2 : x ∈ left.columns))
  have hr : right.keysAt s.namespaces (left.shared right) (q.row t) =
      (left.shared right).map fun x => s.namespaces.comparisonKey (firstUnder (q.bindings t) x) :=
    List.map_congr_left fun x hx =>
      congrArg _ (Sheet.value_map (((hshared x).1 hx).1 : x ∈ right.columns))
  rw [hl, hr, rowsAgree_map_iff]
  · simp only [hshared, and_imp]
  · intro x hx
    refine hc.isCell _ (hchoice.cells hc hs _ (firstUnder_mem ?_))
    rw [names_bound hchoice.length_eq, ← mem_allVars]
    exact ((hshared x).1 hx).2

/-- The answer to patterns joined with the triples that match one more pattern. -/
theorem Answers.join (hc : c.ByEquality cell constant) (hs : s.Comparable cell) {left : Sheet}
    (h : s.Answers done left)
    (hnames : ∀ x ∈ q.vars, ∀ y ∈ allVars (done ++ [q]), Sheet.keyName x ≠ y) :
    ∃ joined, left.join c s.namespaces (q.sheet (s.matched q)) = .ok joined ∧
      s.Answers (done ++ [q]) joined := by
  have hleft := h.tidy hc hs
  have hright := tidy_sheet hc hs q
  obtain ⟨columns, rows⟩ := left
  obtain ⟨rfl, hrows⟩ := h
  have hall : ∀ y, y ∈ allVars done ∨ y ∈ q.vars → y ∈ allVars (done ++ [q]) := by
    intro y hy
    rw [allVars_concat, List.mem_append, List.mem_filter]
    by_cases hmem : y ∈ allVars done
    · exact Or.inl hmem
    · exact Or.inr ⟨hy.resolve_left hmem, by simpa using hmem⟩
  have hjoin := Sheet.join_eq hc hleft hright fun x hx y hy => hnames x hx y (hall y hy)
  have hrow : ∀ before t, done.length = before.length →
      answerRow done before ++ ((⟨allVars done, rows⟩ : Sheet).fresh (q.sheet (s.matched q))).map
        ((q.sheet (s.matched q)).value (q.row t)) = answerRow (done ++ [q]) (before ++ [t]) := by
    intro before t hlength
    rw [answerRow_concat hlength]
    refine congrArg _ (List.map_congr_left fun x hx => ?_)
    exact Sheet.value_map (List.mem_of_mem_filter hx : x ∈ (q.sheet (s.matched q)).columns)
  refine ⟨_, hjoin, (allVars_concat done q).symm, fun row => ?_⟩
  constructor
  · intro hmem
    obtain ⟨l, hl, hmem⟩ := List.mem_flatMap.1 hmem
    obtain ⟨before, hbefore, rfl⟩ := (hrows l).1 hl
    obtain ⟨r, hr, rfl⟩ := List.mem_map.1 hmem
    obtain ⟨hr, hagree⟩ := List.mem_filter.1 hr
    obtain ⟨t, ht, rfl⟩ := List.mem_map.1 hr
    have hacross := (rowsAgree_keysAt_iff hc hs hbefore q (s.matched q) t).1 hagree
    exact ⟨before ++ [t], (solves_concat_iff hc hs).2 ⟨before, t, rfl, hbefore, ht, hacross⟩,
      hrow before t hbefore.length_eq⟩
  · rintro ⟨choice, hchoice, rfl⟩
    obtain ⟨before, t, rfl, hbefore, ht, hacross⟩ := (solves_concat_iff hc hs).1 hchoice
    refine List.mem_flatMap.2 ⟨_, (hrows _).2 ⟨before, hbefore, rfl⟩, List.mem_map.2 ?_⟩
    refine ⟨q.row t, List.mem_filter.2 ⟨List.mem_map_of_mem ht, ?_⟩,
      hrow before t hbefore.length_eq⟩
    exact (rowsAgree_keysAt_iff hc hs hbefore q (s.matched q) t).2 hacross

/-- What has been found after some patterns: a sheet that answers them, or nothing as long as there
are no variables and nothing fails to match. -/
def Found (s : Store) (done : List Pattern) : Option Sheet → Prop
  | some sheet => allVars done ≠ [] ∧ s.Answers done sheet
  | none => allVars done = [] ∧ ∃ choice, s.Solves done choice

theorem solves_of_append (hc : c.ByEquality cell constant) (hs : s.Comparable cell)
    {rest : List Pattern} (h : ∃ choice, s.Solves (done ++ rest) choice) :
    ∃ choice, s.Solves done choice := by
  induction rest using List.reverseRecOn with
  | nil =>
    rw [List.append_nil] at h
    exact h
  | append_singleton rest q ih =>
    obtain ⟨choice, hchoice⟩ := h
    rw [← List.append_assoc] at hchoice
    obtain ⟨before, t, -, hbefore, -⟩ := (solves_concat_iff hc hs).1 hchoice
    exact ih ⟨before, hbefore⟩

theorem Found.ground (hc : c.ByEquality cell constant) (hs : s.Comparable cell)
    {found : Option Sheet} (h : s.Found done found) (hq : q.vars = []) (hmatched : s.matched q ≠ []) :
    s.Found (done ++ [q]) found := by
  cases found with
  | some sheet =>
    refine ⟨?_, h.2.ground hc hs hq hmatched⟩
    rw [allVars_concat, hq, List.filter_nil, List.append_nil]
    exact h.1
  | none =>
    obtain ⟨hdone, choice, hchoice⟩ := h
    obtain ⟨t, ht⟩ := List.exists_mem_of_ne_nil _ hmatched
    refine ⟨?_, choice ++ [t], (solves_concat_iff hc hs).2 ⟨choice, t, rfl, hchoice, ht, ?_⟩⟩
    · rw [allVars_concat, hdone, hq]
      rfl
    · rw [hq]
      simp

theorem mem_allVars_concat {done : List Pattern} {x : String} (hx : x ∈ q.vars) :
    x ∈ allVars (done ++ [q]) := by
  rw [mem_allVars, List.flatMap_append, List.mem_append]
  exact Or.inr (by simpa [vars, names] using hx)

/-- One pattern more: joining goes on with what has been found, or breaks off where no choice is
left. -/
theorem Found.joinAll_cons (hc : c.ByEquality cell constant) (hs : s.Comparable cell)
    {found : Option Sheet} (h : s.Found done found) (rest : List Pattern)
    (hconst : ∀ v ∈ q.constants s.namespaces, constant v)
    (hnames : ∀ x ∈ q.vars, ∀ y ∈ allVars (done ++ [q]), Sheet.keyName x ≠ y) :
    (∃ next, s.Found (done ++ [q]) next ∧ s.joinAll c found (q :: rest) = s.joinAll c next rest) ∨
      s.joinAll c found (q :: rest) = .ok none ∧ ¬ ∃ choice, s.Solves (done ++ [q]) choice := by
  have hmatching : q.matching c s = .ok (s.matched q) := matching_eq hc hs hconst
  simp only [joinAll, hmatching, bind, Except.bind, pure, Except.pure]
  by_cases hground : q.vars = []
  · rw [hground]
    by_cases hmatched : s.matched q = []
    · refine Or.inr ⟨by rw [hmatched]; rfl, ?_⟩
      rintro ⟨choice, hchoice⟩
      obtain ⟨before, t, -, -, ht, -⟩ := (solves_concat_iff hc hs).1 hchoice
      rw [hmatched] at ht
      simp at ht
    · have hempty : (s.matched q).isEmpty = false := by simpa using hmatched
      exact Or.inl ⟨found, h.ground hc hs hground hmatched, by rw [hempty]; rfl⟩
  · have hempty : q.vars.isEmpty = false := by simpa using hground
    have hsome : allVars (done ++ [q]) ≠ [] := by
      obtain ⟨x, hx⟩ := List.exists_mem_of_ne_nil _ hground
      exact List.ne_nil_of_mem (mem_allVars_concat hx)
    rw [hempty]
    cases found with
    | none =>
      have hanswers := answers_first hc hs h.1 h.2 q
      exact Or.inl ⟨some (q.sheet (s.matched q)), ⟨hsome, hanswers⟩, rfl⟩
    | some left =>
      obtain ⟨joined, hjoin, hanswers⟩ := Answers.join hc hs h.2 hnames
      simp only [hjoin]
      by_cases hrows : joined.rows = []
      · refine Or.inr ⟨by rw [hrows]; rfl, ?_⟩
        rintro ⟨choice, hchoice⟩
        have hrow := (hanswers.rows _).2 ⟨choice, hchoice, rfl⟩
        rw [hrows] at hrow
        simp at hrow
      · have hnonempty : joined.rows.isEmpty = false := by simpa using hrows
        exact Or.inl ⟨some joined, ⟨hsome, hanswers⟩, by rw [hnonempty]; rfl⟩

/-- Joining goes on to an answer, or breaks off where no choice is left. -/
theorem joinAll_eq (hc : c.ByEquality cell constant) (hs : s.Comparable cell)
    (rest : List Pattern) {done : List Pattern} {found : Option Sheet} (hfound : s.Found done found)
    (hconst : ∀ q ∈ rest, ∀ v ∈ q.constants s.namespaces, constant v)
    (hnames : ∀ x ∈ allVars (done ++ rest), ∀ y ∈ allVars (done ++ rest), Sheet.keyName x ≠ y) :
    ∃ result, s.joinAll c found rest = .ok result ∧ (s.Found (done ++ rest) result ∨
      result = none ∧ ¬ ∃ choice, s.Solves (done ++ rest) choice) := by
  induction rest generalizing done found with
  | nil =>
    rw [List.append_nil]
    exact ⟨found, rfl, Or.inl hfound⟩
  | cons q rest ih =>
    have hassoc : done ++ q :: rest = (done ++ [q]) ++ rest := by simp
    rw [hassoc] at hnames ⊢
    have hvars : ∀ x, x ∈ allVars (done ++ [q]) → x ∈ allVars (done ++ [q] ++ rest) := by
      intro x hx
      rw [mem_allVars] at hx ⊢
      rw [List.flatMap_append]
      exact List.mem_append_left _ hx
    have hkeys : ∀ x ∈ q.vars, ∀ y ∈ allVars (done ++ [q]), Sheet.keyName x ≠ y := fun x hx y hy =>
      hnames x (hvars x (mem_allVars_concat hx)) y (hvars y hy)
    have hq := hconst q List.mem_cons_self
    rcases hfound.joinAll_cons hc hs rest hq hkeys with ⟨next, hnext, hjoin⟩ | ⟨hjoin, hnone⟩
    · rw [hjoin]
      exact ih hnext (fun r hr => hconst r (List.mem_cons_of_mem _ hr)) hnames
    · exact ⟨none, hjoin, Or.inr ⟨rfl, mt (solves_of_append hc hs) hnone⟩⟩

end Store
end FormulaGraph
