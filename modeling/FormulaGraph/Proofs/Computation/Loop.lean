import FormulaGraph.Engine
import FormulaGraph.Proofs.Evaluation.Growth

/-! Evaluating identifiers in turn: the table at the end holds what was supplied and what the
session has found for the identifiers, and an error is one of resolving one of them. -/
namespace FormulaGraph

namespace Engine

/-- The table holds the supplied values, and what the session has for the other identifiers. -/
structure Evaluated (t : Session) (supplied : Table Value) (uris : List String)
    (values : Table Value) : Prop where
  get? : ∀ key, values.get? key =
    (supplied.get? key).or (if key ∈ uris then t.known key else none)
  known : ∀ uri ∈ uris, supplied.get? uri = none → ∃ v, t.known uri = some v

theorem evaluated_nil (t : Session) (supplied : Table Value) :
    Evaluated t supplied [] supplied where
  get? key := by simp
  known := by simp

theorem Evaluated.cons_of_supplied {t : Session} {supplied values : Table Value} {uri : String}
    {rest : List String} (h : Evaluated t supplied rest values) {v : Value}
    (hv : supplied.get? uri = some v) : Evaluated t supplied (uri :: rest) values where
  get? key := by
    rw [h.get? key]
    by_cases hkey : key = uri
    · simp [hkey, hv]
    · simp [hkey]
  known name hname hnone := by
    rcases List.mem_cons.1 hname with rfl | hname
    · simp [hv] at hnone
    · exact h.known name hname hnone

theorem Evaluated.cons_of_known {t : Session} {supplied values : Table Value} {uri : String}
    {rest : List String} {v : Value} (h : Evaluated t (supplied.insert uri v) rest values)
    (hnone : supplied.get? uri = none) (hv : t.known uri = some v) :
    Evaluated t supplied (uri :: rest) values where
  get? key := by
    rw [h.get? key, Table.get?_insert]
    by_cases hkey : key = uri
    · simp [hkey, hnone, hv]
    · simp [hkey]
  known name hname hn := by
    by_cases hkey : name = uri
    · exact ⟨v, hkey ▸ hv⟩
    · refine h.known name ((List.mem_cons.1 hname).resolve_left hkey) ?_
      rw [Table.get?_insert, if_neg hkey, hn]

theorem evaluated_of_evaluateAll {s : Session} (hs : s.Unsettled) {supplied values : Table Value}
    {uris : List String} (h : evaluateAll s supplied uris = .ok values) :
    ∃ t, s.CompletesTo t ∧ Evaluated t supplied uris values := by
  induction uris generalizing s supplied with
  | nil =>
    obtain rfl := Except.ok.inj h
    exact ⟨s, .refl s, evaluated_nil s supplied⟩
  | cons uri rest ih =>
    rw [evaluateAll] at h
    split at h
    · rename_i hc
      obtain ⟨v, hv⟩ := Table.mem_keys_iff.1 (Table.contains_iff.1 hc)
      obtain ⟨t, hst, ht⟩ := ih hs h
      exact ⟨t, hst, ht.cons_of_supplied hv⟩
    · rename_i hc
      have hnone : supplied.get? uri = none := by
        rwa [Table.contains_iff, ← Table.get?_eq_none_iff] at hc
      split at h
      · rename_i v s' hr
        have hstep := Session.completesTo_of_resolve hs hr
        obtain ⟨t, hst, ht⟩ := ih (hstep.unsettled hs) h
        have hv := hst.known_mono (Session.known_of_resolve hs hr)
        exact ⟨t, hstep.trans hst, ht.cons_of_known hnone hv⟩
      · contradiction

/-- The error is that of an identifier for which nothing was supplied, in a session with whatever is
kept by resolving identifiers. -/
theorem exists_of_evaluateAll_error {P : Session → Prop}
    (hP : ∀ {t u : Session} {uri v}, P t → t.resolve uri = (.ok v, u) → P u) {s : Session} (hs : P s)
    {supplied : Table Value} {uris : List String} {e : EvaluationError}
    (h : evaluateAll s supplied uris = .error e) :
    ∃ uri ∈ uris, supplied.get? uri = none ∧ ∃ t, P t ∧ ∃ u, t.resolve uri = (.error e, u) := by
  induction uris generalizing s supplied with
  | nil => contradiction
  | cons uri rest ih =>
    rw [evaluateAll] at h
    split at h
    · obtain ⟨name, hname, hnone, hfail⟩ := ih hs h
      exact ⟨name, by simp [hname], hnone, hfail⟩
    · rename_i hc
      split at h
      · rename_i v s' hr
        obtain ⟨name, hname, hnone, hfail⟩ := ih (hP hs hr) h
        rw [Table.get?_insert] at hnone
        split at hnone
        · contradiction
        · exact ⟨name, by simp [hname], hnone, hfail⟩
      · rename_i e' s' hr
        obtain rfl := Except.error.inj h
        have hnone : supplied.get? uri = none := by
          rwa [Table.contains_iff, ← Table.get?_eq_none_iff] at hc
        exact ⟨uri, by simp, hnone, s, hs, s', hr⟩

theorem resolve_of_evaluateAll_error {s : Session} (hs : s.Unsettled) {supplied : Table Value}
    {uris : List String} {e : EvaluationError} (h : evaluateAll s supplied uris = .error e) :
    ∃ uri ∈ uris, supplied.get? uri = none ∧
      ∃ t, s.GrowsTo t ∧ ∃ u, t.resolve uri = (.error e, u) :=
  exists_of_evaluateAll_error
    (fun hst hr => hst.trans (Session.growsTo_of_resolve (hst.unsettled hs) hr)) (.refl s) h

end Engine
end FormulaGraph
