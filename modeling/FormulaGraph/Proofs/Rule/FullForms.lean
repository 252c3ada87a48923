import FormulaGraph.Proofs.Namespaces.Idempotence
import FormulaGraph.Proofs.Rule.Parser

/-! Full forms in rules. Where no namespace holds blanks or brackets, the full form of an identifier can
stand wherever the identifier can. -/
namespace FormulaGraph

open Text

namespace Namespaces

def IsTight (ns : Namespaces) : Prop :=
  ∀ e ∈ ns.table.entries, ∀ c ∈ e.2.toList, isBlank c = false ∧ Step.isBracket c = false

instance (ns : Namespaces) : Decidable ns.IsTight :=
  decidable_of_iff (ns.table.entries.all fun e => e.2.toList.all fun c =>
    !isBlank c && !Step.isBracket c) (by
      simp only [List.all_eq_true, Bool.and_eq_true, Bool.not_eq_true', IsTight])

variable {ns : Namespaces} {x : String}

theorem tight_of_isLocalChar {c : Char} (h : isLocalChar c = true) :
    isBlank c = false ∧ Step.isBracket c = false := by
  simp only [isLocalChar, Bool.not_eq_true', Bool.or_eq_false_iff] at h
  exact ⟨h.1.1.1.1.1, by rw [Step.isBracket, h.1.1.1.1.2, h.1.1.1.2]; rfl⟩

/-- An identifier that is not its own full form has one without blanks and brackets. -/
theorem IsTight.of_extend_ne (h : ns.IsTight) (hx : ns.extend x ≠ x) :
    ∀ c ∈ (ns.extend x).toList, isBlank c = false ∧ Step.isBracket c = false := by
  obtain ⟨name, uri, tail, hget, -, hlocal, -, hfull⟩ := exists_of_extend_ne hx
  intro c hc
  rw [hfull] at hc
  rcases List.mem_append.1 hc with hc | hc
  · exact h _ (Table.get?_eq_some_iff.1 hget) c hc
  · exact tight_of_isLocalChar (List.all_eq_true.1 hlocal c hc)

theorem IsTight.isParsedRef_extend (h : ns.IsTight) (hx : IsParsedRef x) :
    IsParsedRef (ns.extend x) := by
  by_cases hself : ns.extend x = x
  · rwa [hself]
  · have hall := h.of_extend_ne hself
    refine ⟨?_, fun c hc => (hall c hc).2⟩
    rw [trim, trimChars, trimBy_of_forall fun c hc => (hall c hc).1, String.ofList_toList]

/-- Where full forms extend to themselves, only the empty text has an empty full form. -/
theorem eq_empty_of_extend (hidem : ∀ x, ns.extend (ns.extend x) = ns.extend x)
    (hx : ns.extend x = "") : x = "" := by
  by_contra hne
  obtain ⟨name, uri, tail, hget, hname, -, -, hfull⟩ :=
    exists_of_extend_ne fun hself => hne (hself.symm.trans hx)
  rw [hx] at hfull
  have huri : uri = "" := String.toList_eq_nil_iff.1 (List.append_eq_nil_iff.1 hfull.symm).1
  subst huri
  -- an empty namespace is in front of every prefix
  have hself := (extend_extend_iff.1 hidem).begun_of_get? hget hname hget hname List.nil_prefix
  have hlength := congrArg (·.toList.length) hself
  simp at hlength

/-- A trimmed identifier is on one line just if its full form is. -/
theorem IsTight.newline_mem_iff (h : ns.IsTight) (hx : trim x = x) :
    '\n' ∈ (ns.extend x).toList ↔ '\n' ∈ x.toList := by
  by_cases hself : ns.extend x = x
  · rw [hself]
  · refine iff_of_false (fun hmem => absurd (h.of_extend_ne hself _ hmem).1 (by decide)) ?_
    obtain ⟨name, uri, tail, -, hname, hlocal, hsplit, -⟩ := exists_of_extend_ne hself
    have htidy : Tidy isBlank x.toList := by
      rw [← hx, trim, String.toList_ofList]
      exact tidy_trimBy _ _
    have htail : dropFinalLineFeed tail = tail := by
      refine if_neg fun hlast => ?_
      have hfeed := htidy.2 '\n' (by
        rw [hsplit, List.getLast?_append_of_ne_nil _ (List.cons_ne_nil _ _), List.getLast?_cons, hlast]
        rfl)
      exact absurd hfeed (by decide)
    rw [htail] at hlocal
    intro hmem
    rw [hsplit] at hmem
    rcases List.mem_append.1 hmem with hmem | hmem
    · exact absurd (mem_of_isPrefixName hname hmem) (by decide)
    · have hmem' := (List.mem_cons.1 hmem).resolve_left (by decide)
      exact absurd (List.all_eq_true.1 hlocal _ hmem') (by decide)

end Namespaces
end FormulaGraph
