import FormulaGraph.Proofs.Query.Solutions

/-! The answer to a query. Up to equality it has one row for each choice of triples that solves the
patterns; a query without variables is answered without rows. -/
namespace FormulaGraph

def Pattern.ofTriple (terms : Value × Value × Value) : Pattern :=
  ⟨.ofValue terms.1, .ofValue terms.2.1, .ofValue terms.2.2⟩

open Pattern

namespace Store

variable {s : Store} {patterns : List Pattern} {choice : List Triple}
variable {c : Comparer} {cell constant : Value → Prop}

def RowEq : List Value → List Value → Prop := List.Forall₂ fun v w => v.eq w = true

theorem RowEq.refl {row : List Value} (h : ∀ v ∈ row, v.IsCell) : RowEq row row :=
  List.forall₂_same.2 fun v hv => (h v hv).self

theorem RowEq.trans {r r' r'' : List Value} (hr : RowEq r r') (h : ∀ v ∈ r, v.IsCell)
    (hr' : RowEq r' r'') : RowEq r r'' := by
  unfold RowEq at *
  induction hr generalizing r'' with
  | nil => exact hr'
  | cons hv _ ih => cases hr' with
    | cons hw hrest =>
      exact .cons (Value.eq_trans (h _ List.mem_cons_self).hashable hv hw)
        (ih (fun v hv => h v (List.mem_cons_of_mem _ hv)) hrest)

theorem rowsAgree_iff {r r' : List Value} (h : ∀ v ∈ r, v.IsCell) :
    Sheet.rowsAgree r r' = true ↔ RowEq r r' := by
  unfold RowEq
  induction r generalizing r' with
  | nil => cases r' <;> simp [Sheet.rowsAgree]
  | cons v r ih => cases r' with
    | nil => simp [Sheet.rowsAgree]
    | cons w r' =>
      rw [Sheet.rowsAgree, Bool.and_eq_true, (h v List.mem_cons_self).agrees,
        ih fun u hu => h u (List.mem_cons_of_mem _ hu), List.forall₂_cons]

theorem sameRow_iff {r r' : List Value} (h : ∀ v ∈ r, v.IsCell) :
    Sheet.sameRow r r' = true ↔ RowEq r r' := by
  rw [← rowsAgree_iff h]
  unfold Sheet.sameRow
  split
  · rename_i v w
    have hv := h v List.mem_cons_self
    have hnan : v.isNaN = false := by
      have hpresent := hv.present
      cases v <;> first | rfl | exact hpresent
    simp [Sheet.rowsAgree, hv.agrees, hnan]
  · exact Iff.rfl

theorem isCell_of_comparisonKey {ns : Namespaces} {v : Value} (h : (ns.comparisonKey v).IsCell) :
    v.IsCell := by
  cases v with
  | text s => exact Value.isCell_text s
  | _ => exact h

theorem Solves.isCell (hc : c.ByEquality cell constant) (hs : s.Comparable cell)
    (h : s.Solves patterns choice) : ∀ v ∈ answerRow patterns choice, v.IsCell := by
  intro v hv
  obtain ⟨x, hx, rfl⟩ := List.mem_map.1 hv
  refine isCell_of_comparisonKey (hc.isCell _ (h.cells hc hs _ (firstUnder_mem ?_)))
  rwa [names_bound h.length_eq, ← mem_allVars]

theorem Answers.isCell (hc : c.ByEquality cell constant) (hs : s.Comparable cell) {sheet : Sheet}
    (h : s.Answers patterns sheet) {row : List Value} (hrow : row ∈ sheet.rows) :
    ∀ v ∈ row, v.IsCell := by
  obtain ⟨choice, hchoice, rfl⟩ := (h.rows row).1 hrow
  exact hchoice.isCell hc hs

/-- The answer to patterns with variables: for each choice of triples that solves them a row equal to
its own, and no others. -/
structure Exact (s : Store) (patterns : List Pattern) (rows : List (List Value)) : Prop where
  sound : ∀ r ∈ rows, ∃ choice, s.Solves patterns choice ∧ r = answerRow patterns choice
  complete : ∀ choice, s.Solves patterns choice → ∃ r ∈ rows, RowEq r (answerRow patterns choice)

theorem Answers.exact_dropRepeated (hc : c.ByEquality cell constant) (hs : s.Comparable cell)
    {sheet : Sheet} (h : s.Answers patterns sheet) :
    s.Exact patterns (Sheet.dropRepeated sheet.rows) ∧
      (Sheet.dropRepeated sheet.rows).Pairwise fun r r' => ¬ RowEq r r' := by
  have hcell : ∀ r ∈ Sheet.dropRepeated sheet.rows, ∀ v ∈ r, v.IsCell := fun r hr =>
    h.isCell hc hs (mem_of_mem_keepFirst hr)
  refine ⟨⟨fun r hr => (h.rows r).1 (mem_of_mem_keepFirst hr), fun choice hchoice => ?_⟩, ?_⟩
  · rcases exists_keepFirst (r := Sheet.sameRow) ((h.rows _).2 ⟨choice, hchoice, rfl⟩) with
      hkept | ⟨r, hr, hsame⟩
    · exact ⟨_, hkept, .refl (hcell _ hkept)⟩
    · exact ⟨r, hr, (sameRow_iff (hcell r hr)).1 hsame⟩
  · refine (pairwise_keepFirst sheet.rows).imp_of_mem fun {r r'} hr _ hdiffer hsame => ?_
    rw [(sameRow_iff (hcell r hr)).2 hsame] at hdiffer
    contradiction

/-- The answer that rows found for a query make: each once, if all cells can be looked up. -/
def answerOf (columns : List String) (rows : List (List Value)) : Except ColumnError Sheet :=
  if rows.all (·.all Value.isHashable) then .ok ⟨columns, Sheet.dropRepeated rows⟩
  else .error .unhashable

/-- A query whose columns are those of the joined sheets is answered by the rows of these. -/
theorem solveBy_of_joinAll {found? : Option Sheet} {found : Sheet}
    (hjoin : s.joinAll c none patterns = .ok found?)
    (hfound : found?.filter (!·.rows.isEmpty) = (some found).filter (!·.rows.isEmpty))
    (hcolumns : (patterns.flatMap vars).eraseDups = found.columns) (hregular : found.Regular) :
    s.solveBy c patterns = answerOf found.columns found.rows := by
  unfold solveBy answerOf
  simp only [hjoin, hcolumns, hfound, Option.filter_some, bind, Except.bind, pure, Except.pure]
  by_cases hrows : found.rows = []
  · rw [hrows]
    rfl
  · have hempty : (!found.rows.isEmpty) = true := by simpa using hrows
    simp only [hempty, if_true, Sheet.project_columns hregular.nodup hregular.length]
    rfl

/-- An answer shows nothing but cells that can be looked up. -/
theorem isHashable_of_solveBy {sheet : Sheet} (h : s.solveBy c patterns = .ok sheet) :
    ∀ row ∈ sheet.rows, ∀ v ∈ row, v.isHashable = true := by
  simp only [solveBy, bind, Except.bind, pure, Except.pure] at h
  split at h
  · contradiction
  split at h
  · obtain rfl := Except.ok.inj h
    simp [Sheet.ofColumns]
  split at h
  · contradiction
  split at h
  · rename_i hall
    obtain rfl := Except.ok.inj h
    intro row hrow v hv
    exact List.all_eq_true.1 (List.all_eq_true.1 hall row (mem_of_mem_keepFirst hrow)) v hv
  · contradiction

section Under

variable {P : Value → Prop} {name : String}

theorem hasUnder_joinAll {left found : Sheet} (h : left.HasUnder name P)
    (hname : ¬ "__key_".toList <+: name.toList)
    (hjoin : s.joinAll c (some left) patterns = .ok (some found)) : found.HasUnder name P := by
  induction patterns generalizing left with
  | nil =>
    obtain rfl := Option.some.inj (Except.ok.inj hjoin)
    exact h
  | cons q rest ih =>
    simp only [joinAll, bind, Except.bind, pure, Except.pure] at hjoin
    split at hjoin
    · contradiction
    split at hjoin
    · split at hjoin
      · exact absurd (Except.ok.inj hjoin).symm (Option.some_ne_none found)
      · exact ih h hjoin
    · split at hjoin
      · contradiction
      rename_i joined hjoined
      split at hjoin
      · exact absurd (Except.ok.inj hjoin).symm (Option.some_ne_none found)
      · exact ih (h.join hname hjoined) hjoin

theorem hasUnder_solveBy {q : Pattern} {sheet : Sheet} (hvar : name ∈ q.vars)
    (hfirst : ∀ triples, q.matching c s = .ok triples → (q.sheet triples).HasUnder name P)
    (hname : ¬ "__key_".toList <+: name.toList)
    (h : s.solveBy c (q :: patterns) = .ok sheet) : sheet.HasUnder name P := by
  have hcolumn : name ∈ ((q :: patterns).flatMap Pattern.vars).eraseDups := by
    simp [hvar]
  have hfound : ∀ found, s.joinAll c none (q :: patterns) = .ok (some found) →
      found.HasUnder name P := by
    intro found hjoin
    have hvars : q.vars.isEmpty = false := by
      cases hq : q.vars with
      | nil => simp [hq] at hvar
      | cons x xs => rfl
    simp only [joinAll, bind, Except.bind, hvars] at hjoin
    split at hjoin
    · contradiction
    · exact hasUnder_joinAll (hfirst _ ‹_›) hname hjoin
  simp only [solveBy, bind, Except.bind, pure, Except.pure] at h
  split at h
  · contradiction
  rename_i found? hjoin
  split at h
  · obtain rfl := Except.ok.inj h
    exact ⟨hcolumn, fun place hplace row hrow => by simp [Sheet.ofColumns] at hrow⟩
  rename_i found hsome
  obtain ⟨rfl, -⟩ := Option.filter_eq_some_iff.1 hsome
  split at h
  · contradiction
  rename_i answer hanswer
  have hunder := (hfound found hjoin).project hcolumn hanswer
  split at h
  · obtain rfl := Except.ok.inj h
    refine ⟨hcolumn, fun place hplace row hrow => ?_⟩
    rw [← Sheet.columns_project hanswer] at hplace
    exact hunder.cells place hplace row (mem_of_mem_keepFirst hrow)
  · contradiction

end Under

/-- A query is answered, and exactly if it has a variable. -/
theorem solveBy_eq (hc : c.ByEquality cell constant) (hs : s.Comparable cell)
    (hconst : ∀ q ∈ patterns, ∀ v ∈ q.constants s.namespaces, constant v)
    (hnames : ∀ x ∈ allVars patterns, ∀ y ∈ allVars patterns, Sheet.keyName x ≠ y) :
    ∃ rows, s.solveBy c patterns = .ok ⟨allVars patterns, rows⟩ ∧
      (rows.Pairwise fun r r' => ¬ RowEq r r') ∧
      (if allVars patterns = [] then rows = [] else s.Exact patterns rows) := by
  have hcolumns : (patterns.flatMap vars).eraseDups = allVars patterns := eraseDups_flatMap _ _
  have hstart : s.Found [] none := ⟨rfl, [], .nil, by simp [Agree, bound]⟩
  have hnone : (¬ ∃ choice, s.Solves patterns choice) → s.Exact patterns [] := fun h =>
    ⟨by simp, fun choice hchoice => absurd ⟨choice, hchoice⟩ h⟩
  obtain ⟨result, hjoin, hresult⟩ := joinAll_eq hc hs patterns hstart hconst hnames
  rw [List.nil_append] at hresult
  cases result with
  | none =>
    have hsolve : s.solveBy c patterns = .ok ⟨allVars patterns, []⟩ := by
      unfold solveBy
      simp only [hcolumns, hjoin, bind, Except.bind, pure, Except.pure]
      rfl
    refine ⟨[], hsolve, List.Pairwise.nil, ?_⟩
    split
    · rfl
    · rename_i hvars
      rcases hresult with hfound | ⟨-, hunsolved⟩
      · exact absurd hfound.1 hvars
      · exact hnone hunsolved
  | some sheet =>
    obtain ⟨hvars, hanswers⟩ : s.Found patterns (some sheet) := by simpa using hresult
    obtain ⟨hexact, hpairwise⟩ := hanswers.exact_dropRepeated hc hs
    have htidy := hanswers.tidy hc hs
    have hhashable : sheet.rows.all (·.all Value.isHashable) = true :=
      List.all_eq_true.2 fun row hrow => List.all_eq_true.2 fun v hv =>
        (hanswers.isCell hc hs hrow v hv).hashable
    refine ⟨Sheet.dropRepeated sheet.rows, ?_, hpairwise, (if_neg hvars).symm ▸ hexact⟩
    rw [solveBy_of_joinAll hjoin rfl (hcolumns.trans hanswers.columns.symm)
      ⟨htidy.nodup, htidy.length⟩, hanswers.columns]
    exact if_pos hhashable

/-- A single pattern with variables is answered by the triples that match it. -/
theorem solveBy_of_matching {q : Pattern} (hvars : q.vars ≠ []) {triples : List Triple}
    (h : q.matching c s = .ok triples) :
    s.solveBy c [q] = answerOf q.vars (triples.map q.row) := by
  have hcolumns : ([q].flatMap vars).eraseDups = q.vars := by
    rw [List.flatMap_singleton]
    exact eraseDups_of_nodup (nodup_eraseDups _)
  have hground : q.vars.isEmpty = false := by simpa using hvars
  have hfound : s.joinAll c none [q] = .ok (some (q.sheet triples)) := by
    unfold joinAll
    simp only [h, hground, bind, Except.bind]
    rfl
  exact solveBy_of_joinAll hfound rfl hcolumns (regular_sheet q triples)

theorem solveBy_single (hc : c.ByEquality cell constant) (hs : s.Comparable cell) {q : Pattern}
    (hconst : ∀ v ∈ q.constants s.namespaces, constant v) (hvars : q.vars ≠ []) :
    s.solveBy c [q] = .ok ⟨q.vars, Sheet.dropRepeated ((s.matched q).map q.row)⟩ := by
  rw [solveBy_of_matching hvars (matching_eq hc hs hconst)]
  refine if_pos (List.all_eq_true.2 fun row hrow => List.all_eq_true.2 fun v hv => ?_)
  exact (isCell_of_comparisonKey
    (hc.isCell _ ((tidy_sheet hc hs q).cells row hrow v hv))).hashable

theorem keyName_ne {x y : String} (h : ¬ "__key_".toList <+: y.toList) : Sheet.keyName x ≠ y := by
  rintro rfl
  refine h ?_
  rw [Sheet.keyName, String.toList_append]
  exact List.prefix_append _ _

theorem constants_ofTriple {ns : Namespaces} {terms : Value × Value × Value}
    (h : ∀ v ∈ [terms.1, terms.2.1, terms.2.2], isVariable v = false →
      constant (ns.comparisonKey v)) : ∀ v ∈ (ofTriple terms).constants ns, constant v := by
  intro v hv
  obtain ⟨term, hmem, hkey⟩ := List.mem_filterMap.1 hv
  cases term with
  | var x => simp at hkey
  | const w =>
    obtain rfl := Option.some.inj hkey
    have hcases : PatternTerm.const w = .ofValue terms.1 ∨ PatternTerm.const w = .ofValue terms.2.1 ∨
        PatternTerm.const w = .ofValue terms.2.2 := by simpa [Pattern.terms, ofTriple] using hmem
    rcases hcases with heq | heq | heq
    all_goals
      obtain ⟨hconst, rfl⟩ := PatternTerm.ofValue_eq_const_iff.1 heq.symm
      exact h _ (by simp) hconst

/-- A query with a variable is answered exactly: up to equality, its rows are those that show the
first cell of each variable for a choice of triples that solves the patterns. No two rows are equal,
and the columns are the variables as they occur first. A query without variables has no rows. -/
theorem queryBy_exact (hc : c.ByEquality cell constant)
    (hs : ∀ t ∈ s.triples, cell (s.namespaces.comparisonKey t.object))
    {terms : List (Value × Value × Value)} (hne : terms ≠ [])
    (hconst : ∀ p ∈ terms, ∀ v ∈ [p.1, p.2.1, p.2.2], isVariable v = false →
      constant (s.namespaces.comparisonKey v))
    (hnames : ∀ x ∈ allVars (terms.map ofTriple), ¬ "__key_".toList <+: x.toList) :
    ∃ answer, s.queryBy c (terms.map fun p => [p.1, p.2.1, p.2.2]) = .ok answer ∧
      answer.columns = allVars (terms.map ofTriple) ∧
      (answer.rows.Pairwise fun r r' => ¬ RowEq r r') ∧
      if answer.columns = [] then answer.rows = []
      else ∀ row, (∃ r ∈ answer.rows, RowEq r row) ↔
        ∃ choice, s.Solves (terms.map ofTriple) choice ∧
          RowEq (answerRow (terms.map ofTriple) choice) row := by
  have hparse : (terms.map fun p => [p.1, p.2.1, p.2.2]).mapM Pattern.ofTerms =
      (.ok (terms.map ofTriple) : Except StoreError (List Pattern)) := by
    refine mapM_eq_ok_iff.2 ?_
    rw [List.forall₂_map_left_iff, List.forall₂_map_right_iff]
    exact List.forall₂_same.2 fun p _ => rfl
  have hconst' : ∀ q ∈ terms.map ofTriple, ∀ v ∈ q.constants s.namespaces, constant v := by
    intro q hq
    obtain ⟨p, hp, rfl⟩ := List.mem_map.1 hq
    exact constants_ofTriple (hconst p hp)
  obtain ⟨rows, hsolve, hpairwise, hrows⟩ :=
    solveBy_eq hc hs hconst' fun x hx y hy => keyName_ne (hnames y hy)
  refine ⟨⟨allVars (terms.map ofTriple), rows⟩, ?_, rfl, hpairwise, ?_⟩
  · have hempty : (terms.map fun p => [p.1, p.2.1, p.2.2]).isEmpty = false := by simpa using hne
    unfold queryBy
    simp only [hempty, hparse, hsolve, bind, Except.bind, pure, Except.pure]
    rfl
  · dsimp only
    split
    · rename_i hvars
      rwa [if_pos hvars] at hrows
    · rename_i hvars
      rw [if_neg hvars] at hrows
      intro row
      constructor
      · rintro ⟨r, hr, heq⟩
        obtain ⟨choice, hchoice, rfl⟩ := hrows.sound r hr
        exact ⟨choice, hchoice, heq⟩
      · rintro ⟨choice, hchoice, heq⟩
        obtain ⟨r, hr, hsame⟩ := hrows.complete choice hchoice
        obtain ⟨choice', hchoice', rfl⟩ := hrows.sound r hr
        exact ⟨_, hr, hsame.trans (hchoice'.isCell hc hs) heq⟩

def family : Store where
  namespaces := .standard
  triples := [
    ⟨"http://knorke/a", "http://knorke/p", .text "kno:b"⟩,
    ⟨"http://knorke/b", "http://knorke/p", .text "x"⟩,
    ⟨"http://knorke/a", "http://knorke/q", .text "x"⟩]

/-- A query whose second pattern joins an object with a subject. -/
theorem queryBy_exact_family :
    ∃ answer, family.query [[.text "?s", .text "kno:p", .text "?o"],
        [.text "?o", .text "?p", .text "x"]] = .ok answer ∧ answer.columns = ["s", "o", "p"] ∧
      ∃ r ∈ answer.rows, RowEq r [.text "http://knorke/a", .text "kno:b", .text "http://knorke/p"] := by
  obtain ⟨answer, hanswer, hcolumns, -, hrows⟩ := @queryBy_exact family .byKind _ _
    Comparer.byEquality_byKind (by decide) [(.text "?s", .text "kno:p", .text "?o"),
      (.text "?o", .text "?p", .text "x")] (by decide) (by decide) (by decide)
  have hvars : answer.columns = ["s", "o", "p"] := hcolumns.trans (by decide)
  rw [if_neg (by simp [hvars])] at hrows
  refine ⟨answer, hanswer, hvars, (hrows _).2 ⟨[⟨"http://knorke/a", "http://knorke/p", .text "kno:b"⟩,
    ⟨"http://knorke/b", "http://knorke/p", .text "x"⟩], ⟨?_, ?_⟩, ?_⟩⟩
  · refine .cons ⟨by simp [family], ?_⟩ (.cons ⟨by simp [family], ?_⟩ .nil)
    · decide +kernel
    · decide +kernel
  · unfold Agree
    decide +kernel
  · refine .cons ?_ (.cons ?_ (.cons ?_ .nil))
    · decide +kernel
    · decide +kernel
    · decide +kernel

/-- A pattern without variables that holds has a solution, which binds nothing, but no row. -/
theorem query_ground_family :
    ∃ answer choice, family.query [[.text "kno:a", .text "kno:p", .text "kno:b"]] = .ok answer ∧
      family.Solves [ofTriple (.text "kno:a", .text "kno:p", .text "kno:b")] choice ∧
      ¬ ∃ r ∈ answer.rows,
        RowEq r (answerRow [ofTriple (.text "kno:a", .text "kno:p", .text "kno:b")] choice) := by
  refine ⟨⟨[], []⟩, [⟨"http://knorke/a", "http://knorke/p", .text "kno:b"⟩], rfl, ⟨?_, ?_⟩, ?_⟩
  · refine .cons ⟨by simp [family], ?_⟩ .nil
    decide +kernel
  · unfold Agree
    decide +kernel
  · simp

end Store
end FormulaGraph
