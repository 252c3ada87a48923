import FormulaGraph.Proofs.Computation.Normalization
import FormulaGraph.Proofs.Rule.FullForms
import FormulaGraph.Proofs.Rule.Spelling

/-! Normal forms of rules are their own normal forms: what a step is written as is read as a step that is
written alike, or it is no prefixed identifier, and no full form is read as a step. -/
namespace FormulaGraph

open Text Double

namespace Step

variable {s t : Step} {f g : String → String}

theorem numberText_alike {x y : Float} (h : Alike x y) : numberText x = numberText y :=
  h.congr (by decide +kernel)

theorem Agrees.toText_eq (h : s.Agrees Eq Alike t) : s.toText = t.toText := by
  rw [← String.toList_inj]
  cases h with
  | roundUp => rfl
  | atLeast hx => rw [toList_toText_atLeast, toList_toText_atLeast, numberText_alike hx]
  | choose href comparison hx hy hz =>
    rw [toList_toText_choose, toList_toText_choose, choiceText, choiceText, href,
      numberText_alike hx, numberText_alike hy, numberText_alike hz]
  | reuse href => rw [href]
  | @chain left left' hleft op right right' hright =>
    have hterm : termText right = termText right' := by
      cases hright with
      | number hx => rw [termText, termText, numberText_alike hx]
      | ref hname => rw [hname]
    cases hleft with
    | none => rw [toList_toText_continue, toList_toText_continue, hterm]
    | some href => rw [toList_toText_start, toList_toText_start, href, hterm]

theorem mapRefs_mapRefs (s : Step) : (s.mapRefs f).mapRefs g = s.mapRefs (g ∘ f) := by
  cases s with
  | chain left op right => cases left <;> cases right <;> rfl
  | _ => rfl

/-- What a step is written as is no prefixed identifier. -/
theorem extend_toText (ns : Namespaces) (s : Step) : ns.extend s.toText = s.toText := by
  have hbracket : ∀ c, c = '(' ∨ c = '[' → c ∈ s.toText.toList → ns.extend s.toText = s.toText := by
    intro c hc hmem
    unfold Namespaces.extend
    split
    · rfl
    · rename_i hsplit
      exact absurd hmem (Namespaces.notMem_of_splitPrefixed? hsplit hc)
  cases s with
  | roundUp => rfl
  | atLeast x =>
    refine hbracket '(' (Or.inl rfl) ?_
    rw [toList_toText_atLeast]
    exact List.mem_append_left _ (by decide)
  | choose ref comparison x y z =>
    refine hbracket '(' (Or.inl rfl) ?_
    rw [toList_toText_choose]
    exact List.mem_append_left _ (by decide)
  | reuse ref =>
    refine hbracket '[' (Or.inr rfl) ?_
    rw [toList_toText_reuse]
    exact List.mem_cons_self
  | chain left op right =>
    cases left with
    | some ref =>
      refine hbracket '[' (Or.inr rfl) ?_
      rw [toList_toText_start]
      exact List.mem_cons_self
    | none =>
      -- the operation in front is no letter
      unfold Namespaces.extend
      split
      · rfl
      · rename_i hsplit
        obtain ⟨tail, hlist, -, hname, -⟩ := Namespaces.splitPrefixed?_eq_some hsplit
        obtain ⟨c, name, rfl, hc⟩ := Namespaces.exists_isAlpha_of_isPrefixName hname
        rw [toList_toText_continue] at hlist
        obtain rfl := (List.cons.inj hlist).1
        cases op <;> contradiction

end Step

namespace Rule

variable {ns : Namespaces} {rule : String} {s : Step}

/-- A step is written with its identifiers in full form once and for all. -/
theorem normalizeText_toText_mapRefs (htight : ns.IsTight)
    (hidem : ∀ x, ns.extend (ns.extend x) = ns.extend x) (hs : s.IsParsed) :
    normalizeText ns.extend (s.mapRefs ns.extend).toText = (s.mapRefs ns.extend).toText := by
  cases hread : Step.ofText (s.mapRefs ns.extend).toText with
  | error e =>
    rw [normalizeText, hread]
    exact Step.extend_toText ns _
  | ok t =>
    have hreadable : (s.mapRefs ns.extend).IsReadable := by
      refine Step.isReadable_of_ofText (fun ref href => ?_) (fun x hx => ?_) hread
      · rw [Step.references_mapRefs] at href
        obtain ⟨name, hname, rfl⟩ := List.mem_map.1 href
        exact htight.isParsedRef_extend (hs.isParsedRef name hname)
      · rw [Step.operand?_mapRefs] at hx
        exact hs.isFinite hx
    obtain ⟨t', hagree, hread'⟩ := hreadable.ofText
    obtain rfl : t = t' := Except.ok.inj (hread.symm.trans hread')
    have htwice : ns.extend ∘ ns.extend = ns.extend := funext hidem
    have hagrees : ((s.mapRefs ns.extend).mapRefs ns.extend).Agrees Eq Alike
        (t.mapRefs ns.extend) := hagree.mapRefs fun _ _ => congrArg ns.extend
    calc normalizeText ns.extend (s.mapRefs ns.extend).toText
        = (t.mapRefs ns.extend).toText := normalizeText_of_ok ns.extend hread
      _ = ((s.mapRefs ns.extend).mapRefs ns.extend).toText := hagrees.toText_eq.symm
      _ = (s.mapRefs ns.extend).toText := by rw [Step.mapRefs_mapRefs, htwice]

/-- A full form cannot be read as a rule, unless it is the identifier itself. -/
theorem not_ofText_extend
    (hletter : ∀ e ∈ ns.table.entries, ∀ c ∈ e.2.toList.head?, isWord c = true)
    (hslash : ∀ e ∈ ns.table.entries, '/' ∈ e.2.toList)
    (hchars : ∀ e ∈ ns.table.entries, ∀ c ∈ e.2.toList,
      isBlank c = false ∧ c ∉ ['[', ']', '(', ')'])
    (hne : ns.extend rule ≠ rule) : Step.ofText (ns.extend rule) ≠ .ok s := by
  obtain ⟨name, uri, tail, hget, -, hlocal, -, hfull⟩ := Namespaces.exists_of_extend_ne hne
  have hentry := Table.get?_eq_some_iff.1 hget
  have hall : ∀ c ∈ (ns.extend rule).toList, isBlank c = false ∧ c ∉ ['[', ']', '(', ')'] := by
    intro c hc
    rw [hfull] at hc
    rcases List.mem_append.1 hc with hc | hc
    · exact hchars _ hentry c hc
    · have hchar := List.all_eq_true.1 hlocal c hc
      simp only [Namespaces.isLocalChar, Bool.not_eq_true', Bool.or_eq_false_iff,
        beq_eq_false_iff_ne] at hchar
      simp [hchar]
  have hmem : '/' ∈ (ns.extend rule).toList := by
    rw [hfull]
    exact List.mem_append_left _ (hslash _ hentry)
  have hhead : ∀ c ∈ (ns.extend rule).toList.head?, c ∉ ['+', '-', '*', '/'] := by
    intro c hc hop
    have huri : uri.toList ≠ [] := List.ne_nil_of_mem (hslash _ hentry)
    rw [hfull, List.head?_append_of_ne_nil _ huri] at hc
    have hword := hletter _ hentry c hc
    simp only [List.mem_cons, List.not_mem_nil, or_false] at hop
    rcases hop with rfl | rfl | rfl | rfl <;> exact absurd hword (by decide)
  have hround : (ns.extend rule).toList ≠ Step.roundUpWord := by
    intro hword
    rw [hword] at hmem
    exact absurd hmem (by decide)
  have htrim : trimChars (ns.extend rule).toList = (ns.extend rule).toList :=
    trimBy_of_forall fun c hc => (hall c hc).1
  unfold Step.ofText
  rw [htrim]
  dsimp only
  split
  · intro h
    cases h
  · exact Step.not_ofTrimmed hround (fun h => (hall _ h).2 (by decide))
      (fun h => (hall _ h).2 (by decide)) hhead

/-- The normal form of a rule is its own normal form, whether the rule can be read or not. -/
theorem normalize_idempotent (ns : Namespaces)
    (hletter : ∀ e ∈ ns.table.entries, ∀ c ∈ e.2.toList.head?, isWord c = true)
    (hslash : ∀ e ∈ ns.table.entries, '/' ∈ e.2.toList)
    (hchars : ∀ e ∈ ns.table.entries, ∀ c ∈ e.2.toList,
      isBlank c = false ∧ c ∉ ['[', ']', '(', ')']) (rule : Value) :
    normalize ns.extend (normalize ns.extend rule) = normalize ns.extend rule := by
  cases rule with
  | text rule =>
    have htight : ns.IsTight := by
      intro e he c hc
      obtain ⟨hblank, hbracket⟩ := hchars e he c hc
      simp only [List.mem_cons, List.not_mem_nil, or_false, not_or] at hbracket
      exact ⟨hblank, by simp [Step.isBracket, hbracket]⟩
    refine congrArg Value.text ?_
    cases hs : Step.ofText rule with
    | ok s =>
      rw [normalizeText_of_ok ns.extend hs]
      exact normalizeText_toText_mapRefs htight (Namespaces.extend_extend hslash)
        (Step.isParsed_of_ofText hs)
    | error e =>
      have hnormal : normalizeText ns.extend rule = ns.extend rule := by rw [normalizeText, hs]
      rw [hnormal]
      by_cases hself : ns.extend rule = rule
      · rw [hself, hnormal, hself]
      · cases hs' : Step.ofText (ns.extend rule) with
        | ok s => exact absurd hs' (not_ofText_extend hletter hslash hchars hself)
        | error e' => rw [normalizeText, hs', Namespaces.extend_extend hslash]
  | _ => rfl

/-- A rule that is read, and one that is no rule but a prefixed identifier. -/
theorem normalize_idempotent_stat :
    let ns := Namespaces.standard.add "stat" "http://example.org/stat#"
    normalizeText ns.extend " [stat:a] * 2" = "[http://example.org/stat#a]*2" ∧
      normalize ns.extend (normalize ns.extend (.text " [stat:a] * 2")) =
        normalize ns.extend (.text " [stat:a] * 2") ∧
      normalizeText ns.extend "stat:a" = "http://example.org/stat#a" ∧
      normalize ns.extend (normalize ns.extend (.text "stat:a")) =
        normalize ns.extend (.text "stat:a") := by
  intro ns
  have hletter : ∀ e ∈ ns.table.entries, ∀ c ∈ e.2.toList.head?, isWord c = true := by
    have hall : ns.table.entries.all (·.2.toList.head?.all isWord) = true := by decide +kernel
    intro e he c hc
    have h := List.all_eq_true.1 hall e he
    rwa [Option.mem_def.1 hc] at h
  have hslash : ∀ e ∈ ns.table.entries, '/' ∈ e.2.toList := by decide +kernel
  have hchars : ∀ e ∈ ns.table.entries, ∀ c ∈ e.2.toList,
      isBlank c = false ∧ c ∉ ['[', ']', '(', ')'] := by
    have hall : ns.table.entries.all (fun e => e.2.toList.all fun c =>
        !isBlank c && decide (c ∉ ['[', ']', '(', ')'])) = true := by decide +kernel
    simpa only [List.all_eq_true, Bool.and_eq_true, Bool.not_eq_true', decide_eq_true_eq] using hall
  exact ⟨by decide +kernel, normalize_idempotent ns hletter hslash hchars _, by decide +kernel,
    normalize_idempotent ns hletter hslash hchars _⟩

end Rule
end FormulaGraph
