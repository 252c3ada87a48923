import FormulaGraph.Proofs.Trim
import FormulaGraph.Rule.Parser

/-! What the parser accepts, form by form, and what the steps it gives look like. -/
namespace FormulaGraph

open Text Double

/-- A reference that stays what it is between brackets. -/
structure IsCleanRef (ref : String) : Prop where
  nonempty : ref ≠ ""
  trimmed : trim ref = ref
  unbracketed : ∀ c ∈ ref.toList, Step.isBracket c = false

/-- A reference that the parser gives; between brackets it can be blank. -/
structure IsParsedRef (ref : String) : Prop where
  trimmed : trim ref = ref
  unbracketed : ∀ c ∈ ref.toList, Step.isBracket c = false

theorem isCleanRef_iff {ref : String} : IsCleanRef ref ↔ ref ≠ "" ∧ IsParsedRef ref :=
  ⟨fun h => ⟨h.nonempty, h.trimmed, h.unbracketed⟩, fun h => ⟨h.1, h.2.trimmed, h.2.unbracketed⟩⟩

instance (ref : String) : Decidable (IsCleanRef ref) :=
  decidable_of_iff (ref ≠ "" ∧ trim ref = ref ∧ ref.toList.all (!Step.isBracket ·) = true)
    ⟨fun h => ⟨h.1, h.2.1, by simpa using h.2.2⟩,
      fun h => ⟨h.nonempty, h.trimmed, by simpa using h.unbracketed⟩⟩

def Term.IsParsed : Term → Prop
  | number x => x.isFinite = true
  | ref name => IsParsedRef name ∧ '\n' ∉ name.toList

/-- What a step looks like that the parser gives. -/
def Step.IsParsed : Step → Prop
  | roundUp | atLeast _ => True
  | choose ref _ _ _ _ | reuse ref => IsParsedRef ref
  | chain left _ right => (∀ ref ∈ left, IsParsedRef ref) ∧ right.IsParsed

namespace Step

theorem trim_of_tidy {cs : List Char} (h : Tidy isBlank cs) :
    trim (String.ofList cs) = String.ofList cs := by
  unfold trim trimChars
  rw [String.toList_ofList, trimBy_of_tidy h]

variable {cs rest : List Char} {ref rule : String}

theorem bracketed?_complete (h : IsCleanRef ref) :
    bracketed? ('[' :: (ref.toList ++ ']' :: rest)) = some (ref, rest) := by
  have hall : ∀ c ∈ ref.toList, (!isBracket c) = true := fun c hc => by simp [h.unbracketed c hc]
  have htake : (ref.toList ++ ']' :: rest).takeWhile (!isBracket ·) = ref.toList := by
    rw [List.takeWhile_append_of_pos hall]
    exact List.append_nil _
  have hdrop : (ref.toList ++ ']' :: rest).dropWhile (!isBracket ·) = ']' :: rest := by
    rw [List.dropWhile_append_of_pos hall]
    rfl
  have hne : ref.toList.isEmpty = false := by
    simpa using h.nonempty
  have htrim : String.ofList (trimChars ref.toList) = ref := h.trimmed
  unfold bracketed?
  simp only [htake, hdrop, hne, htrim, Bool.false_eq_true, if_false]

theorem bracketed?_sound (h : bracketed? cs = some (ref, rest)) :
    IsParsedRef ref ∧ ∀ c ∈ ref.toList, c ∈ cs := by
  unfold bracketed? at h
  split at h
  · rename_i cs
    dsimp only at h
    split at h
    · split at h
      · contradiction
      · obtain ⟨hname, -⟩ := Prod.mk.inj (Option.some.inj h)
        subst hname
        have hmem : ∀ c ∈ (String.ofList (trimChars (cs.takeWhile (!isBracket ·)))).toList,
            c ∈ cs.takeWhile (!isBracket ·) := by
          intro c hc
          rw [String.toList_ofList] at hc
          exact mem_of_mem_trimBy hc
        refine ⟨⟨trim_of_tidy (tidy_trimBy _ _), fun c hc => ?_⟩, fun c hc => ?_⟩
        · have hc' : (!isBracket c) = true :=
            @List.mem_takeWhile_imp _ (!isBracket ·) _ _ (hmem c hc)
          simpa using hc'
        · exact List.mem_cons_of_mem _ ((List.takeWhile_sublist _).subset (hmem c hc))
    · contradiction
  · contradiction

theorem bracketed?_of_head? (h : cs.head? ≠ some '[') : bracketed? cs = none := by
  cases cs with
  | nil => rfl
  | cons c cs =>
    have hc : c ≠ '[' := fun heq => h (by rw [heq, List.head?_cons])
    unfold bracketed?
    split
    · rename_i heq
      exact absurd (List.cons.inj heq).1 hc
    · rfl

theorem isParsedRef_of_identifier (h : cs.all isIdentifierChar = true) :
    IsParsedRef (String.ofList cs) := by
  have hall : ∀ c ∈ cs, isBlank c = false ∧ isBracket c = false := by
    intro c hc
    have hchar := List.all_eq_true.1 h c hc
    simp only [isIdentifierChar, Bool.not_eq_true', Bool.or_eq_false_iff] at hchar
    exact ⟨hchar.1.1.1.1, hchar.1.1.1.2⟩
  have htrim : trimBy isBlank cs = cs := trimBy_of_forall fun c hc => (hall c hc).1
  refine ⟨?_, fun c hc => ?_⟩
  · unfold trim trimChars
    rw [String.toList_ofList, htrim]
  · rw [String.toList_ofList] at hc
    exact (hall c hc).2

theorem afterWord?_sound {word : List Char} (h : afterWord? word cs = some rest) : cs = word ++ rest := by
  induction word generalizing cs with
  | nil => exact Option.some.inj h
  | cons w word ih =>
    obtain ⟨tail, hexpect, htail⟩ := Option.bind_eq_some_iff.1 h
    cases cs with
    | nil => contradiction
    | cons d cs =>
      rw [expect?] at hexpect
      split at hexpect
      · rename_i hd
        obtain rfl := Option.some.inj hexpect
        rw [hd, ih htail, List.cons_append]
      · contradiction

theorem term?_sound {t : Term} (h : term? cs = some t) (hline : '\n' ∉ cs) : t.IsParsed := by
  unfold term? at h
  split at h
  · rename_i name hb
    obtain rfl := Option.some.inj h
    obtain ⟨hparsed, hmem⟩ := bracketed?_sound hb
    exact ⟨hparsed, fun hc => hline (hmem _ hc)⟩
  · split at h
    · rename_i y hy
      obtain rfl := Option.some.inj h
      exact (Option.filter_eq_some_iff.1 hy).2
    · split at h
      · rename_i hid
        obtain rfl := Option.some.inj h
        rw [Bool.and_eq_true] at hid
        refine ⟨isParsedRef_of_identifier hid.2, ?_⟩
        rwa [String.toList_ofList]
      · contradiction

theorem operation?_sound {op : Op} {operand : List Char}
    (h : operation? cs = some (op, operand)) : '\n' ∉ operand := by
  cases cs with
  | nil => contradiction
  | cons c cs =>
    obtain ⟨op', -, h⟩ := Option.bind_eq_some_iff.1 h
    dsimp only at h
    split at h
    · contradiction
    · rename_i hno
      obtain ⟨-, rfl⟩ := Prod.mk.inj (Option.some.inj h)
      rw [Bool.or_eq_true, not_or, List.contains_iff_mem] at hno
      exact hno.2

theorem chain?_sound {left : Option String} {s : Step}
    (h : chain? rule left cs = some (.ok s)) :
    ∃ op right, s = chain left op right ∧ right.IsParsed := by
  obtain ⟨⟨op, operand⟩, hop, h⟩ := Option.map_eq_some_iff.1 h
  dsimp only at h
  split at h
  · rename_i right hterm
    exact ⟨op, right, (Except.ok.inj h).symm, term?_sound hterm (operation?_sound hop)⟩
  · contradiction

theorem choice?_sound {s : Step} (h : choice? cs = some s) : s.IsParsed := by
  unfold choice? at h
  simp only [Option.bind_eq_bind, Option.bind_eq_some_iff] at h
  obtain ⟨⟨ref, cs₁⟩, href, ⟨comparison, cs₂⟩, -, ⟨x, cs₃⟩, -, ⟨y, cs₄⟩, -, ⟨z, cs₅⟩, -, cs₆, -,
    h⟩ := h
  split at h
  · obtain rfl := Option.some.inj h
    exact (bracketed?_sound href).1
  · contradiction

theorem simple?_sound {s : Step} (h : simple? rule cs = some (.ok s)) : s.IsParsed := by
  unfold simple? at h
  split at h
  · rename_i ref hb
    obtain rfl := Except.ok.inj (Option.some.inj h)
    exact (bracketed?_sound hb).1
  · rename_i ref rest hrest hb
    obtain ⟨op, right, rfl, hright⟩ := chain?_sound h
    refine ⟨fun r hr => ?_, hright⟩
    obtain rfl := Option.some.inj hr
    exact (bracketed?_sound hb).1
  · obtain ⟨op, right, rfl, hright⟩ := chain?_sound h
    exact ⟨by simp, hright⟩

theorem isParsed_of_ofTrimmed {s : Step} (h : ofTrimmed cs = .ok s) : s.IsParsed := by
  have hgetD : ∀ {o : Option (Except RuleError Step)} {e : RuleError},
      o.getD (.error e) = .ok s → o = some (.ok s) := by
    intro o e ho
    cases o with
    | none => contradiction
    | some r => exact congrArg some ho
  unfold ofTrimmed at h
  dsimp only at h
  split at h
  · obtain rfl := Except.ok.inj h
    trivial
  split at h
  · split at h
    · obtain rfl := Except.ok.inj h
      trivial
    · contradiction
  split at h
  · rename_i step hstep
    obtain rfl := Except.ok.inj h
    obtain ⟨rest, -, hchoice⟩ := Option.bind_eq_some_iff.1 hstep
    exact choice?_sound hchoice
  · exact simple?_sound (hgetD h)

theorem isParsed_of_ofText {s : Step} (h : ofText rule = .ok s) : s.IsParsed := by
  unfold ofText at h
  dsimp only at h
  split at h
  · contradiction
  · exact isParsed_of_ofTrimmed h

theorem isParsed_of_ofRule {rule : Value} {s : Step} (h : ofRule rule = .ok s) : s.IsParsed := by
  cases rule with
  | text rule => exact isParsed_of_ofText h
  | _ => contradiction

end Step
end FormulaGraph
