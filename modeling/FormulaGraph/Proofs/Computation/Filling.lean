import FormulaGraph.Proofs.Computation.Entities
import FormulaGraph.Proofs.Double.Figures

/-! Stores that are filled once their prefixes are registered. What discovery reads off them does not
depend on which triples were told twice. -/
namespace FormulaGraph

open Column (isText)

namespace Value

theorem isHashable_eq_kind (v : Value) :
    v.isHashable = (v.kind != "list" && v.kind != "dict") := by
  cases v with
  | operand o => cases o <;> simp [isHashable, kind]
  | _ => simp [isHashable, kind]

/-- The kind and the text of a value tell whether it is there. -/
theorem isMissing_eq_display (v : Value) :
    v.isMissing = (v.kind == "NoneType" || v.kind == "float" && v.display == "nan") := by
  cases v with
  | operand o => cases o <;> simp [isMissing, kind]
  | float x =>
    change x.isNaN = (Double.Layout.plain.render x == "nan")
    rw [Bool.eq_iff_iff, beq_iff_eq]
    exact Double.render_plain_eq_nan_iff.symm
  | _ => simp [isMissing, kind]

theorem isMissing_comparisonKey (ns : Namespaces) (v : Value) :
    (ns.comparisonKey v).isMissing = v.isMissing := by
  cases v <;> simp [Namespaces.comparisonKey, isMissing]

theorem kind_comparisonKey (ns : Namespaces) (v : Value) : (ns.comparisonKey v).kind = v.kind := by
  cases v <;> simp [Namespaces.comparisonKey, kind]

end Value

/-- Whether two triples say the same. -/
def Triple.sameContent (ns : Namespaces) (t u : Triple) : Bool := t.content ns == u.content ns

theorem dropRepeatedBy_eq_keepFirst {α β : Type} [BEq β] (key : α → β) (xs : List α) :
    dropRepeatedBy key xs = keepFirst (fun x y => key x == key y) xs := by
  have hfold : ∀ ys : List α, ys.foldl (fun (kept : List (β × α)) x =>
      let k := key x
      if kept.any (·.1 == k) then kept else (k, x) :: kept) [] =
        (keepFirst (fun x y => key x == key y) ys).reverse.map fun x => (key x, x) := by
    intro ys
    induction ys using List.reverseRecOn with
    | nil => rfl
    | append_singleton ys y ih =>
      rw [List.foldl_append, List.foldl_cons, List.foldl_nil, ih, keepFirst_concat]
      dsimp only
      rw [List.any_map, List.any_reverse]
      change (if (keepFirst (fun x y => key x == key y) ys).any (fun x => key x == key y) then _
        else _) = _
      split
      · rfl
      · rw [List.reverse_concat, List.map_cons]
  unfold dropRepeatedBy
  rw [hfold, ← List.map_reverse, List.reverse_reverse, List.map_map]
  exact List.map_id _

namespace Triple

variable {ns : Namespaces}

theorem sameContent_iff {t u : Triple} : t.sameContent ns u = true ↔ t.content ns = u.content ns :=
  beq_iff_eq

end Triple

namespace Store

variable {ns : Namespaces} {triples : List Triple}

/-- The store with some triples told in turn. -/
def filled (ns : Namespaces) (triples : List Triple) : Store := ⟨ns, dropRepeated ns triples⟩

theorem triples_filled (ns : Namespaces) (triples : List Triple) :
    (filled ns triples).triples = keepFirst (Triple.sameContent ns) triples :=
  dropRepeatedBy_eq_keepFirst _ _

/-- The store with further triples; if there are none it stays as it is. -/
def addAll (s : Store) : List Triple → Store
  | [] => s
  | t :: rest => filled s.namespaces (s.triples ++ t :: rest)

theorem addAll_of_ne_nil {s : Store} {new : List Triple} (h : new ≠ []) :
    s.addAll new = filled s.namespaces (s.triples ++ new) := by
  cases new with
  | nil => contradiction
  | cons t rest => rfl

theorem addTriples_eq (s : Store) (rows : List (List Value)) : s.addTriples rows =
    match rows.mapM (Triple.ofTerms s.namespaces) with
    | .error cause => (.error cause, s)
    | .ok new =>
      if new = [] ∨ ∀ t ∈ s.triples ++ new, t.object.isWritable = true then
        (.ok ((s.addAll new).size - s.size), s.addAll new)
      else (.error .longInteger, s) := by
  have hrun : s.addTriples rows = ((do
      let new ← Loading.need (rows.mapM (Triple.ofTerms s.namespaces))
      if new.isEmpty then return 0
      let triples ← Loading.need (distinct s.namespaces (s.triples ++ new))
      set { s with triples }
      return (triples.length : Int) - s.triples.length : Loading Int).run s :
        Except StoreError Int × Store) := rfl
  rw [hrun]
  cases rows.mapM (Triple.ofTerms s.namespaces) with
  | error cause => rfl
  | ok new =>
    cases new with
    | nil =>
      have hgrowth : (s.size : Int) - s.size = 0 := by omega
      exact congrArg (fun n => (Except.ok n, s)) hgrowth.symm
    | cons t rest =>
      have hdistinct : distinct s.namespaces (s.triples ++ t :: rest) =
          if ∀ u ∈ s.triples ++ t :: rest, u.object.isWritable = true then
            .ok (dropRepeated s.namespaces (s.triples ++ t :: rest)) else .error .longInteger := by
        unfold distinct
        simp only [List.all_eq_true]
      change ((Loading.need (distinct s.namespaces (s.triples ++ t :: rest)) >>= _).run s :
        Except StoreError Int × Store) = _
      rw [hdistinct]
      by_cases hall : ∀ u ∈ s.triples ++ t :: rest, u.object.isWritable = true
      · rw [if_pos hall]
        exact (if_pos (Or.inr hall)).symm
      · have hrefused : ¬ (t :: rest = [] ∨
            ∀ u ∈ s.triples ++ t :: rest, u.object.isWritable = true) := by simpa using hall
        rw [if_neg hall]
        exact (if_neg hrefused).symm

theorem addTriples_of_mapM {s : Store} {rows : List (List Value)} {new : List Triple}
    (h : rows.mapM (Triple.ofTerms s.namespaces) = .ok new)
    (hw : ∀ t ∈ s.triples ++ new, t.object.isWritable = true) :
    s.addTriples rows = (.ok ((s.addAll new).size - s.size), s.addAll new) := by
  rw [addTriples_eq, h]
  exact if_pos (Or.inr hw)

theorem exists_of_addTriples {s s' : Store} {rows : List (List Value)} {n : Int}
    (h : s.addTriples rows = (.ok n, s')) :
    ∃ new, rows.mapM (Triple.ofTerms s.namespaces) = .ok new ∧ s' = s.addAll new := by
  rw [addTriples_eq] at h
  split at h
  · cases h
  · rename_i new hnew
    split at h
    · exact ⟨new, hnew, (congrArg Prod.snd h).symm⟩
    · cases h

theorem add_eq (s : Store) (terms : List Value) :
    s.add terms = ((s.addTriples [terms]).1.map fun _ => (), (s.addTriples [terms]).2) := by
  change (ExceptT.bindCont (fun _ => pure () : Int → Loading Unit) (s.addTriples [terms]).1
    (s.addTriples [terms]).2 : Except StoreError Unit × Store) = _
  rcases s.addTriples [terms] with ⟨cause | n, t⟩ <;> rfl

theorem mapM_singleton_ofTerms {terms : List Value} {t : Triple}
    (h : Triple.ofTerms ns terms = .ok t) : [terms].mapM (Triple.ofTerms ns) = .ok [t] := by
  rw [List.mapM_cons, h]
  rfl

theorem add_of_ofTerms {s : Store} {terms : List Value} {t : Triple}
    (h : Triple.ofTerms s.namespaces terms = .ok t)
    (hw : ∀ u ∈ s.triples ++ [t], u.object.isWritable = true) :
    s.add terms = (.ok (), filled s.namespaces (s.triples ++ [t])) := by
  rw [add_eq, addTriples_of_mapM (mapM_singleton_ofTerms h) hw]
  rfl

theorem eq_filled_of_add {s s' : Store} {terms : List Value} {t : Triple}
    (ht : Triple.ofTerms s.namespaces terms = .ok t) (h : s.add terms = (.ok (), s')) :
    s' = filled s.namespaces (s.triples ++ [t]) := by
  rw [add_eq] at h
  cases hadd : s.addTriples [terms] with
  | mk result u =>
    rw [hadd] at h
    cases result with
    | error cause => cases h
    | ok n =>
      obtain ⟨new, hnew, rfl⟩ := exists_of_addTriples hadd
      obtain rfl := Except.ok.inj ((mapM_singleton_ofTerms ht).symm.trans hnew)
      exact (congrArg Prod.snd h).symm

end Store

namespace Triple

variable {ns : Namespaces} {t u : Triple}

theorem names_of_sameContent (h : t.sameContent ns u = true) :
    t.subject = u.subject ∧ t.predicate = u.predicate := by
  have hcontent := sameContent_iff.1 h
  exact ⟨congrArg (·.1) hcontent, congrArg (·.2.1) hcontent⟩

theorem isHashable_of_sameContent (h : t.sameContent ns u = true) :
    t.object.isHashable = u.object.isHashable := by
  have hkind : t.object.kind = u.object.kind := congrArg (·.2.2.1) (sameContent_iff.1 h)
  rw [Value.isHashable_eq_kind, Value.isHashable_eq_kind, hkind]

theorem isMissing_of_sameContent (h : t.sameContent ns u = true) :
    t.object.isMissing = u.object.isMissing := by
  have hkind : t.object.kind = u.object.kind := congrArg (·.2.2.1) (sameContent_iff.1 h)
  have htext : (ns.comparisonKey t.object).display = (ns.comparisonKey u.object).display :=
    congrArg (·.2.2.2) (sameContent_iff.1 h)
  rw [← Value.isMissing_comparisonKey ns t.object, ← Value.isMissing_comparisonKey ns u.object,
    Value.isMissing_eq_display, Value.isMissing_eq_display, Value.kind_comparisonKey,
    Value.kind_comparisonKey, hkind, htext]

/-- Cells of texts that say the same are compared in one form. -/
theorem comparisonKey_of_sameContent (ht : isText t.object = true) (hu : isText u.object = true)
    (h : t.sameContent ns u = true) (place : Nat) :
    ns.comparisonKey (t.cell place) = ns.comparisonKey (u.cell place) := by
  obtain ⟨hsubject, hpredicate⟩ := names_of_sameContent h
  have hobject : ns.comparisonKey t.object = ns.comparisonKey u.object := by
    have htext : (ns.comparisonKey t.object).display = (ns.comparisonKey u.object).display :=
      congrArg (·.2.2.2) (sameContent_iff.1 h)
    obtain ⟨s, hs⟩ := exists_text ht
    obtain ⟨s', hs'⟩ := exists_text hu
    rw [hs, hs'] at htext ⊢
    simp only [Namespaces.comparisonKey, Value.display] at htext ⊢
    rw [htext]
  rcases place with _ | _ | _ | place
  · exact congrArg (fun name => ns.comparisonKey (.text name)) hsubject
  · exact congrArg (fun name => ns.comparisonKey (.text name)) hpredicate
  · exact hobject
  · rfl

/-- A pattern cannot tell texts apart that say the same. -/
theorem admits_of_sameContent (ht : isText t.object = true) (hu : isText u.object = true)
    (h : t.sameContent ns u = true) (q : Pattern) :
    (q.admits ns t && q.repetitions.all (Pattern.alike ns t)) =
      (q.admits ns u && q.repetitions.all (Pattern.alike ns u)) := by
  obtain ⟨hsubject, hpredicate⟩ := names_of_sameContent h
  have hkeys := comparisonKey_of_sameContent ht hu h
  have halike : Pattern.alike ns t = Pattern.alike ns u := funext fun places => by
    unfold Pattern.alike
    rw [hkeys, hkeys]
  have hobject : ns.comparisonKey t.object = ns.comparisonKey u.object := hkeys 2
  unfold Pattern.admits
  rw [halike, hsubject, hpredicate, hobject]

end Triple

namespace Store

variable {ns : Namespaces} {triples : List Triple}

theorem filter_filled (p : String → Bool) : (filled ns triples).triples.filter (p ·.subject) =
    keepFirst (Triple.sameContent ns) (triples.filter (p ·.subject)) := by
  rw [triples_filled]
  exact filter_keepFirst fun t _ u _ h => congrArg p (Triple.names_of_sameContent h).1

theorem textual_filled (htexts : ∀ t ∈ triples, isText t.object = true) :
    (filled ns triples).Textual := fun t ht => by
  rw [triples_filled] at ht
  exact htexts t (mem_of_mem_keepFirst ht)

theorem matched_filled (htexts : ∀ t ∈ triples, isText t.object = true) (q : Pattern) :
    (filled ns triples).matched q =
      keepFirst (Triple.sameContent ns) ((⟨ns, triples⟩ : Store).matched q) := by
  unfold matched
  rw [triples_filled]
  exact filter_keepFirst fun t ht u hu h =>
    Triple.admits_of_sameContent (htexts t ht) (htexts u hu) h q

end Store

namespace Entity

variable {prefixes ns : Namespaces} {triples : List Triple} {entityType order : Value}

theorem listed_filled : listed (.filled prefixes triples) order =
    keepFirst (Triple.sameContent prefixes) (listed ⟨prefixes, triples⟩ order) :=
  Store.filter_filled fun subject => (Value.text subject).eq (prefixes.comparisonKey order)

theorem isHashable_listed_filled :
    (∀ t ∈ listed (.filled prefixes triples) order, t.object.isHashable = true) ↔
      ∀ t ∈ listed ⟨prefixes, triples⟩ order, t.object.isHashable = true := by
  rw [listed_filled]
  refine ⟨fun h t ht => ?_, fun h t ht => h t (mem_of_mem_keepFirst ht)⟩
  rcases exists_keepFirst (r := Triple.sameContent prefixes) ht with hkept | ⟨u, hu, hut⟩
  · exact h t hkept
  · exact (Triple.isHashable_of_sameContent hut).symm.trans (h u hu)

section Filled

variable (htexts : ∀ t ∈ triples, isText t.object = true)
include htexts

theorem isTyped_filled (subject : String) : isTyped (.filled prefixes triples) entityType subject =
    isTyped ⟨prefixes, triples⟩ entityType subject := by
  unfold isTyped
  rw [Store.matched_filled htexts]
  refine any_keepFirst fun t _ u _ h => ?_
  rw [(Triple.names_of_sameContent h).1]

theorem told_filled : told (.filled prefixes triples) entityType =
    keepFirst (Triple.sameContent prefixes) (told ⟨prefixes, triples⟩ entityType) := by
  unfold told
  simp only [isTyped_filled htexts]
  exact Store.filter_filled (isTyped ⟨prefixes, triples⟩ entityType)

theorem subjects_filled : subjects (.filled prefixes triples) entityType =
    subjects ⟨prefixes, triples⟩ entityType := by
  unfold subjects
  rw [told_filled htexts]
  exact eraseDups_map_keepFirst (f := Triple.subject)
    (fun t u h => (Triple.names_of_sameContent h).1) _

theorem heads_described_filled (uri : String) :
    heads ns (described (.filled prefixes triples) ns entityType uri) =
      heads ns (described ⟨prefixes, triples⟩ ns entityType uri) := by
  unfold described
  rw [told_filled htexts]
  exact heads_filter_keepFirst (fun _ _ => Triple.names_of_sameContent) (· == ns.extend uri) _

theorem heads_orderTriples_filled (order : String) :
    heads ns (orderTriples (.filled prefixes triples) order) =
      heads ns (orderTriples ⟨prefixes, triples⟩ order) := by
  unfold orderTriples
  rw [Store.matched_filled htexts]
  exact heads_keepFirst (fun t u h => (Triple.names_of_sameContent h).2) _

end Filled

end Entity
end FormulaGraph
