import FormulaGraph.Graph.Query
import FormulaGraph.Proofs.Query.Equality

/-! Patterns under comparison by equality: the triples that match a pattern are those whose cells
equal its constants and agree where it repeats a variable. -/
namespace FormulaGraph

/-- A comparer that tells cells of one class apart by equality, among themselves and from constants
of another class. -/
structure Comparer.ByEquality (c : Comparer) (cell constant : Value → Prop) : Prop where
  text : ∀ s, cell (.text s)
  isCell : ∀ v, cell v → v.IsCell
  column : ∀ {cells}, (∀ v ∈ cells, cell v) → ∃ column, c.column cells = .ok column
  /-- A constant next to texts, which are not taken for cells of a kind. -/
  names : ∀ {texts : List String} {v}, constant v →
    c.matching ⟨.mixed, texts.map .text⟩ v = .ok (texts.map fun s => (Value.text s).eq v)
  matching : ∀ {cells column v}, (∀ w ∈ cells, cell w) → c.column cells = .ok column →
    constant v → c.matching column v = .ok (cells.map (·.eq v))
  matchingTexts : ∀ {cells column} {texts : List String}, (∀ w ∈ cells, cell w) →
    c.column cells = .ok column → texts.length = cells.length →
    c.matchingTexts column texts = .ok (List.zipWith Value.eq cells (texts.map .text))
  unify : ∀ {xs ys a b}, (∀ v ∈ xs, cell v) → (∀ v ∈ ys, cell v) → c.column xs = .ok a →
    c.column ys = .ok b → ∃ a' b', c.unify a b = .ok (a', b') ∧ a'.cells = xs ∧ b'.cells = ys

namespace Column

variable {cells : List Value} {column : Column}

def ofTexts (cells : List Value) : Column := ⟨if cells = [] then .mixed else .texts, cells⟩

theorem ofCells_texts (h : ∀ v ∈ cells, isText v = true) : ofCells cells = ofTexts cells := by
  cases cells with
  | nil => rfl
  | cons v rest =>
    have hpresent : ((v :: rest).filter (!·.isMissing)).all isText = true :=
      List.all_eq_true.2 fun w hw => h w (List.mem_of_mem_filter hw)
    have hother : otherKind (v :: rest) = .texts := if_pos hpresent
    have hv := h v List.mem_cons_self
    cases v with
    | text s =>
      have hkind : kindOf (.text s :: rest) = .texts := hother
      unfold ofCells
      rw [hkind]
      rfl
    | _ => contradiction

theorem eq_ofTexts (h : ∀ v ∈ cells, isText v = true)
    (hcolumn : Comparer.byKind.column cells = .ok column) : column = ofTexts cells :=
  (Except.ok.inj hcolumn).symm.trans (ofCells_texts h)

theorem equals_of_isText {v : Value} (h : isText v = true) (w : Value) : v.equals w = v.eq w := by
  cases v with
  | text s => exact Bool.and_true _
  | _ => contradiction

theorem equalTo_texts (h : ∀ v ∈ column.cells, isText v = true) (w : Value) :
    column.equalTo w = column.cells.map (·.eq w) :=
  List.map_congr_left fun v hv => equals_of_isText (h v hv) w

theorem matching_ofTexts (h : ∀ v ∈ cells, isText v = true) (s : String) :
    (ofTexts cells).matching (.text s) = .ok (cells.map (·.eq (.text s))) := by
  have heq : (ofTexts cells).equalTo (.text s) = cells.map (·.eq (.text s)) := equalTo_texts h _
  rw [← heq]
  by_cases hnil : cells = []
  · subst hnil
    rfl
  · simp only [ofTexts, matching, hnil, if_false]

theorem matchingTexts_ofTexts (h : ∀ v ∈ cells, isText v = true) (texts : List String) :
    (ofTexts cells).matchingTexts texts =
      .ok (List.zipWith Value.eq cells (texts.map .text)) := by
  have heq : List.zipWith Value.equals cells (texts.map .text) =
      List.zipWith Value.eq cells (texts.map .text) := by
    rw [← List.map_uncurry_zip_eq_zipWith, ← List.map_uncurry_zip_eq_zipWith]
    exact List.map_congr_left fun p hp => equals_of_isText (h p.1 (List.of_mem_zip hp).1) p.2
  by_cases hnil : cells = []
  · subst hnil
    rfl
  · simp only [ofTexts, matchingTexts, hnil, if_false, heq]

theorem unify_ofTexts (xs ys : List Value) :
    (ofTexts xs).unify (ofTexts ys) = .ok (ofTexts xs, ofTexts ys) := by
  unfold unify
  cases xs <;> cases ys <;> simp [ofTexts]

end Column

open Column in
/-- By kind, texts are compared with texts by equality. -/
theorem Comparer.byEquality_byKind :
    Comparer.byKind.ByEquality (isText · = true) (isText · = true) where
  text _ := rfl
  isCell v hv := by
    cases v with
    | text s => exact Value.isCell_text s
    | _ => contradiction
  column h := ⟨_, congrArg Except.ok (ofCells_texts h)⟩
  names {texts v} hv := by
    have htexts : ∀ w ∈ texts.map Value.text, isText w = true := by simp [isText]
    have heq : (⟨.mixed, texts.map .text⟩ : Column).equalTo v =
        (texts.map Value.text).map (·.eq v) := equalTo_texts htexts v
    rw [List.map_map] at heq
    cases v with
    | text s => exact congrArg Except.ok heq
    | _ => contradiction
  matching {cells column v} h hcolumn hv := by
    obtain rfl := eq_ofTexts h hcolumn
    cases v with
    | text s => exact matching_ofTexts h s
    | _ => contradiction
  matchingTexts {cells column texts} h hcolumn _ := by
    obtain rfl := eq_ofTexts h hcolumn
    exact matchingTexts_ofTexts h texts
  unify {xs ys a b} hx hy ha hb := by
    obtain rfl := eq_ofTexts hx ha
    obtain rfl := eq_ofTexts hy hb
    exact ⟨_, _, unify_ofTexts xs ys, rfl, rfl⟩

theorem PatternTerm.ofValue_eq_const_iff {v w : Value} :
    ofValue v = .const w ↔ isVariable v = false ∧ w = v := by
  cases v with
  | text t =>
    unfold ofValue
    dsimp only
    split
    · rename_i hvar
      exact ⟨nofun, fun h => absurd hvar (by simp [h.1])⟩
    · rename_i hvar
      exact ⟨fun h => ⟨Bool.eq_false_iff.2 hvar, (const.inj h).symm⟩, fun h => by rw [h.2]⟩
  | _ => exact ⟨fun h => ⟨rfl, (const.inj h).symm⟩, fun h => by rw [h.2]; rfl⟩

/-- Whether a cell can stand for a term: any cell for a variable, an equal one for a constant. -/
def PatternTerm.admits (ns : Namespaces) (cell : Value) : PatternTerm → Bool
  | .var _ => true
  | .const v => cell.eq (ns.comparisonKey v)

namespace Pattern

/-- Whether a triple has the constants of a pattern: subject and predicate as they are stored, the
object in the form in which it is compared. -/
def admits (ns : Namespaces) (q : Pattern) (t : Triple) : Bool :=
  q.subject.admits ns (.text t.subject) && q.predicate.admits ns (.text t.predicate) &&
    q.object.admits ns (ns.comparisonKey t.object)

def alike (ns : Namespaces) (t : Triple) (places : Nat × Nat) : Bool :=
  (ns.comparisonKey (t.cell places.2)).eq (ns.comparisonKey (t.cell places.1))

def constants (ns : Namespaces) (q : Pattern) : List Value :=
  q.terms.filterMap fun
    | .var _ => none
    | .const v => some (ns.comparisonKey v)

theorem select_map (triples : List Triple) (f : Triple → Bool) :
    select triples (triples.map f) = triples.filter f := by
  unfold select
  induction triples with
  | nil => rfl
  | cons t rest ih =>
    rw [List.map_cons, List.zip_cons_cons, List.filterMap_cons, List.filter_cons, ih]
    cases f t <;> rfl

variable {c : Comparer} {cell constant : Value → Prop} {ns : Namespaces}
variable {triples : List Triple} {q : Pattern}

theorem termMatches_var (c : Comparer) (ns : Namespaces)
    (column : List Value → Except ColumnError Column) (triples : List Triple) (key : Triple → Value)
    (x : String) :
    termMatches c ns column (triples.map key) (.var x) = .ok (triples.map fun _ => true) :=
  congrArg Except.ok (List.map_map ..)

theorem termMatches_names (hc : c.ByEquality cell constant) (triples : List Triple)
    (name : Triple → String) {term : PatternTerm} (hterm : ∀ v, term = .const v → constant (ns.comparisonKey v)) :
    termMatches c ns (fun cells => .ok ⟨.mixed, cells⟩) (triples.map fun t => .text (name t)) term =
      .ok (triples.map fun t => term.admits ns (.text (name t))) := by
  cases term with
  | var x => exact termMatches_var c ns _ triples _ x
  | const v =>
    have h : c.matching ⟨.mixed, (triples.map name).map .text⟩ (ns.comparisonKey v) = _ :=
      hc.names (hterm v rfl)
    rw [List.map_map, List.map_map] at h
    exact h

theorem termMatches_keys (hc : c.ByEquality cell constant)
    (ht : ∀ t ∈ triples, cell (ns.comparisonKey t.object)) {term : PatternTerm}
    (hterm : ∀ v, term = .const v → constant (ns.comparisonKey v)) :
    termMatches c ns (fun cells => c.column (cells.map ns.comparisonKey))
      (triples.map fun t => t.cell 2) term =
      .ok (triples.map fun t => term.admits ns (ns.comparisonKey t.object)) := by
  cases term with
  | var x => exact termMatches_var c ns _ triples _ x
  | const v =>
    have hcells : ∀ w ∈ (triples.map fun t => t.cell 2).map ns.comparisonKey, cell w := by
      rw [List.map_map]
      intro w hw
      obtain ⟨t, htm, rfl⟩ := List.mem_map.1 hw
      exact ht t htm
    obtain ⟨column, hcolumn⟩ := hc.column hcells
    have h := hc.matching hcells hcolumn (hterm v rfl)
    unfold termMatches
    dsimp only
    rw [hcolumn]
    rw [List.map_map, List.map_map] at h
    exact h

/-- Subject and predicate are looked at first; what is refused then is refused for the objects. -/
theorem constantsMatch_of_names {f g : Triple → Bool}
    (hs : termMatches c ns (fun cells => .ok ⟨.mixed, cells⟩) (triples.map fun t => .text t.subject)
      q.subject = .ok (triples.map f))
    (hp : termMatches c ns (fun cells => .ok ⟨.mixed, cells⟩)
      (triples.map fun t => .text t.predicate) q.predicate = .ok (triples.map g)) :
    constantsMatch c ns triples q =
      (termMatches c ns (fun cells => c.column (cells.map ns.comparisonKey))
        (triples.map fun t => t.cell 2) q.object).map
          (List.zipWith and (triples.map fun t => f t && g t)) := by
  have hand : List.zipWith and (triples.map f) (triples.map g) = triples.map fun t => f t && g t := by
    rw [List.zipWith_map, List.zipWith_self]
  calc constantsMatch c ns triples q
      = (do
          let subjects ← termMatches c ns (fun cells => .ok ⟨.mixed, cells⟩)
            (triples.map fun t => .text t.subject) q.subject
          let predicates ← termMatches c ns (fun cells => .ok ⟨.mixed, cells⟩)
            (triples.map fun t => .text t.predicate) q.predicate
          let objects ← termMatches c ns (fun cells => c.column (cells.map ns.comparisonKey))
            (triples.map fun t => t.cell 2) q.object
          return List.zipWith and (List.zipWith and subjects predicates) objects) := rfl
    _ = _ := by
      rw [hs, hp, ← hand]
      rfl

/-- The triples that have the constants of a pattern are those that each of its terms matches. -/
theorem constantsMatch_of_terms {f g h : Triple → Bool}
    (hs : termMatches c ns (fun cells => .ok ⟨.mixed, cells⟩) (triples.map fun t => .text t.subject)
      q.subject = .ok (triples.map f))
    (hp : termMatches c ns (fun cells => .ok ⟨.mixed, cells⟩)
      (triples.map fun t => .text t.predicate) q.predicate = .ok (triples.map g))
    (ho : termMatches c ns (fun cells => c.column (cells.map ns.comparisonKey))
      (triples.map fun t => t.cell 2) q.object = .ok (triples.map h)) :
    constantsMatch c ns triples q = .ok (triples.map fun t => f t && g t && h t) := by
  rw [constantsMatch_of_names hs hp, ho]
  refine congrArg Except.ok ?_
  rw [List.zipWith_map, List.zipWith_self]

theorem constantsMatch_eq (hc : c.ByEquality cell constant)
    (ht : ∀ t ∈ triples, cell (ns.comparisonKey t.object))
    (hq : ∀ v ∈ q.constants ns, constant v) :
    constantsMatch c ns triples q = .ok (triples.map (q.admits ns)) := by
  have hterm : ∀ term ∈ q.terms, ∀ v, term = .const v → constant (ns.comparisonKey v) := by
    rintro term hmem v rfl
    exact hq _ (List.mem_filterMap.2 ⟨_, hmem, rfl⟩)
  exact constantsMatch_of_terms
    (termMatches_names hc triples Triple.subject (hterm q.subject (by simp [terms])))
    (termMatches_names hc triples Triple.predicate (hterm q.predicate (by simp [terms])))
    (termMatches_keys hc ht (hterm q.object (by simp [terms])))

/-- Where no variable is repeated, constants alone decide. -/
theorem matching_of_constantsMatch {s : Store} {f : Triple → Bool} (hq : q.repetitions = [])
    (h : constantsMatch c s.namespaces s.triples q = .ok (s.triples.map f)) :
    q.matching c s = .ok (s.triples.filter f) := by
  unfold matching
  rw [h, hq]
  exact congrArg Except.ok (select_map s.triples f)

theorem comparisonKey_cell (hc : c.ByEquality cell constant) {t : Triple}
    (ht : cell (ns.comparisonKey t.object)) {place : Nat} (hplace : place < 3) :
    cell (ns.comparisonKey (t.cell place)) := by
  obtain rfl | rfl | rfl : place = 0 ∨ place = 1 ∨ place = 2 := by omega
  · exact hc.text _
  · exact hc.text _
  · exact ht

theorem whereSame_eq (hc : c.ByEquality cell constant)
    (ht : ∀ t ∈ triples, cell (ns.comparisonKey t.object))
    {places : Nat × Nat} (hplaces : places.1 < 2 ∧ places.2 < 3) :
    whereSame c ns triples places = .ok (triples.filter (alike ns · places)) := by
  have hcells : ∀ v ∈ triples.map fun t => ns.comparisonKey (t.cell places.2), cell v := by
    intro v hv
    obtain ⟨t, htm, rfl⟩ := List.mem_map.1 hv
    exact comparisonKey_cell hc (ht t htm) hplaces.2
  have hname : ∀ t : Triple, Value.text (ns.extend (Text.trim (t.name places.1))) =
      ns.comparisonKey (t.cell places.1) := by
    intro t
    obtain h | h : places.1 = 0 ∨ places.1 = 1 := by omega
    · rw [h]
      rfl
    · rw [h]
      rfl
  obtain ⟨column, hcolumn⟩ := hc.column hcells
  have htexts : c.matchingTexts column
      (triples.map fun t => ns.extend (Text.trim (t.name places.1))) = _ :=
    hc.matchingTexts hcells hcolumn (by simp)
  unfold whereSame
  rw [hcolumn]
  change (do return select triples (← c.matchingTexts column _)) = _
  rw [htexts, List.map_map, List.zipWith_map, List.zipWith_self]
  change Except.ok (select triples (triples.map _)) = _
  rw [select_map]
  refine congrArg Except.ok (List.filter_congr fun t _ => ?_)
  exact congrArg (Value.eq _) (hname t)

theorem lt_of_mem_repetitions {places : Nat × Nat} (h : places ∈ q.repetitions) :
    places.1 < 2 ∧ places.2 < 3 := by
  have hterms : q.terms.map PatternTerm.var? = [q.subject.var?, q.predicate.var?, q.object.var?] := rfl
  rw [repetitions, hterms] at h
  dsimp only at h
  split at h
  · rcases List.mem_cons.1 h with rfl | h
    · decide
    · split at h
      · obtain rfl := List.mem_singleton.1 h
        decide
      · contradiction
  · split at h
    · obtain rfl := List.mem_singleton.1 h
      decide
    · split at h
      · obtain rfl := List.mem_singleton.1 h
        decide
      · contradiction

/-- The triples that match a pattern. -/
theorem matching_eq {s : Store} (hc : c.ByEquality cell constant)
    (hs : ∀ t ∈ s.triples, cell (s.namespaces.comparisonKey t.object))
    (hq : ∀ v ∈ q.constants s.namespaces, constant v) :
    q.matching c s = .ok (s.triples.filter fun t =>
      q.admits s.namespaces t && q.repetitions.all (alike s.namespaces t)) := by
  have hfold : ∀ (places : List (Nat × Nat)) (triples : List Triple),
      (∀ p ∈ places, p.1 < 2 ∧ p.2 < 3) → (∀ t ∈ triples, t ∈ s.triples) →
      places.foldlM (whereSame c s.namespaces) triples =
        .ok (triples.filter fun t => places.all (alike s.namespaces t)) := by
    intro places
    induction places with
    | nil =>
      intro triples _ _
      simp
      rfl
    | cons p places ih =>
      intro triples hp ht
      have hhead := whereSame_eq hc (fun t htm => hs t (ht t htm)) (hp p List.mem_cons_self)
      rw [List.foldlM_cons, hhead]
      change places.foldlM _ _ = _
      rw [ih _ (fun r hr => hp r (List.mem_cons_of_mem _ hr))
        (fun t htm => ht t (List.mem_of_mem_filter htm)), List.filter_filter]
      simp only [List.all_cons, Bool.and_comm]
  unfold matching
  rw [constantsMatch_eq hc hs hq]
  change q.repetitions.foldlM _ (select s.triples (s.triples.map _)) = _
  rw [select_map, hfold _ _ (fun p hp => lt_of_mem_repetitions hp)
    (fun t ht => List.mem_of_mem_filter ht), List.filter_filter]
  simp only [Bool.and_comm]

end Pattern
end FormulaGraph
