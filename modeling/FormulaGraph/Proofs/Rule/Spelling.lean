import FormulaGraph.Proofs.Double.Digits
import FormulaGraph.Proofs.Evaluation.Following
import FormulaGraph.Proofs.Namespaces
import FormulaGraph.Proofs.Rule.Parser
import FormulaGraph.Proofs.Trim
import FormulaGraph.Rule.Normal

/-! The spelling of identifiers in rules. What can be read as a rule is no prefixed identifier, and rules
whose steps differ in the spelling of identifiers only have one normal form. -/
namespace FormulaGraph

open Text

namespace Namespaces

theorem exists_isAlpha_of_isPrefixName {name : List Char} (h : isPrefixName name = true) :
    ∃ c tail, name = c :: tail ∧ c.isAlpha = true := by
  cases name with
  | nil => contradiction
  | cons c tail => exact ⟨c, tail, rfl, (Bool.and_eq_true_iff.1 h).1⟩

theorem notMem_of_splitPrefixed? {cs name rest : List Char}
    (h : splitPrefixed? cs = some (name, rest)) {c : Char} (hc : c = '(' ∨ c = '[') : c ∉ cs := by
  obtain ⟨tail, rfl, rfl, hname, hrest⟩ := splitPrefixed?_eq_some h
  have hnot : (c.isAlpha || isWord c || c == '-' || c == '.') = false ∧ isLocalChar c = false ∧
      c ≠ ':' ∧ c ≠ '\n' := by
    rcases hc with rfl | rfl <;> decide
  intro hmem
  rcases List.mem_append.1 hmem with hfront | hback
  · rw [mem_of_isPrefixName hname hfront] at hnot
    exact absurd hnot.1 (by decide)
  · have htail := (List.mem_cons.1 hback).resolve_left hnot.2.2.1
    have hlocal := List.all_eq_true.1 hrest c (mem_dropFinalLineFeed htail hnot.2.2.2)
    rw [hlocal] at hnot
    exact absurd hnot.2.1 (by decide)

end Namespaces

namespace Step

variable {rule : String} {s t : Step} {cs : List Char}

theorem isOp_of_operation? {op : Op} {operand : List Char} (h : operation? cs = some (op, operand)) :
    ∃ c tail, cs = c :: tail ∧ c ∈ ['+', '-', '*', '/'] := by
  cases cs with
  | nil => contradiction
  | cons c tail =>
    refine ⟨c, tail, rfl, ?_⟩
    obtain ⟨op', hop, -⟩ := Option.bind_eq_some_iff.1 h
    have hsymbol : op'.symbol = c := by simpa using List.find?_some hop
    rw [← hsymbol]
    cases op' <;> decide

/-- Without a bracket or an operation in front, only one word can be read. -/
theorem not_ofTrimmed (hround : cs ≠ roundUpWord) (hparen : '(' ∉ cs) (hbracket : '[' ∉ cs)
    (hop : ∀ c ∈ cs.head?, c ∉ ['+', '-', '*', '/']) : ofTrimmed cs ≠ .ok s := by
  have hword : ∀ word, '(' ∈ word → afterWord? word cs = none := by
    intro word hmem
    refine Option.eq_none_iff_forall_ne_some.2 fun rest h => hparen ?_
    rw [afterWord?_sound h]
    exact List.mem_append_left _ hmem
  have hbracketed : bracketed? cs = none :=
    bracketed?_of_head? fun hhead => hbracket (List.mem_of_head? hhead)
  have hoperation : operation? cs = none := by
    refine Option.eq_none_iff_forall_ne_some.2 fun (op, operand) h => ?_
    obtain ⟨c, tail, rfl, hc⟩ := isOp_of_operation? h
    exact hop c rfl hc
  unfold ofTrimmed
  rw [if_neg hround, hword maxWord (by decide), hword ifWord (by decide), simple?, hbracketed,
    chain?, hoperation]
  exact nofun

/-- What can be read as a rule is no prefixed identifier. -/
theorem extend_of_ofText (ns : Namespaces) (h : ofText rule = .ok s) : ns.extend rule = rule := by
  unfold Namespaces.extend
  split
  · rfl
  · rename_i name rest hsplit
    have hbracket : ∀ c, c = '(' ∨ c = '[' → c ∉ trimChars rule.toList := fun c hc hmem =>
      Namespaces.notMem_of_splitPrefixed? hsplit hc (mem_of_mem_trimBy hmem)
    obtain ⟨tail, hrule, -, hname, -⟩ := Namespaces.splitPrefixed?_eq_some hsplit
    obtain ⟨c, name, rfl, hc⟩ := Namespaces.exists_isAlpha_of_isPrefixName hname
    have hround : trimChars rule.toList ≠ roundUpWord := by
      intro hword
      have hcolon : ':' ∈ trimChars rule.toList := mem_trimBy (hrule ▸ by simp) (by decide)
      rw [hword] at hcolon
      exact absurd hcolon (by decide)
    have hhead : ∀ d ∈ (trimChars rule.toList).head?, d ∉ ['+', '-', '*', '/'] := by
      intro d hd
      obtain ⟨more, hmore⟩ := trimBy_prefix_dropWhile isBlank rule.toList
      rw [hrule, List.cons_append, List.dropWhile_cons_of_neg (by simp [isBlank_of_isAlpha hc]),
        ← List.cons_append, ← hrule] at hmore
      obtain rfl : d = c := by
        have hfirst := congrArg List.head? hmore
        unfold trimChars at hd
        rw [List.head?_append, Option.mem_def.1 hd, hrule] at hfirst
        exact Option.some.inj hfirst
      intro hop
      simp only [List.mem_cons, List.not_mem_nil, or_false] at hop
      rcases hop with rfl | rfl | rfl | rfl <;> contradiction
    unfold ofText at h
    dsimp only at h
    split at h
    · contradiction
    · exact absurd h (not_ofTrimmed hround (hbracket _ (Or.inl rfl)) (hbracket _ (Or.inr rfl)) hhead)

section Agrees

variable {E E' : String → String → Prop} {R : Float → Float → Prop} {f : String → String}

/-- Related identifiers make related steps, also where they are rewritten. -/
theorem Agrees.mapRefs (hE : ∀ x y, E x y → E' (f x) (f y)) (h : s.Agrees E R t) :
    (s.mapRefs f).Agrees E' R (t.mapRefs f) := by
  cases h with
  | roundUp => exact .roundUp
  | atLeast hx => exact .atLeast hx
  | choose href comparison hx hy hz => exact .choose (hE _ _ href) comparison hx hy hz
  | reuse href => exact .reuse (hE _ _ href)
  | chain hleft op hright =>
    refine .chain ?_ op ?_
    · cases hleft with
      | none => exact .none
      | some href => exact .some (hE _ _ href)
    · cases hright with
      | number hx => exact .number hx
      | ref hname => exact .ref (hE _ _ hname)

theorem mapRefs_id (s : Step) : s.mapRefs id = s := by
  cases s with
  | chain left op right => cases left <;> cases right <;> rfl
  | _ => rfl

theorem Agrees.imp (hE : ∀ x y, E x y → E' x y) (h : s.Agrees E R t) : s.Agrees E' R t := by
  have hsame : (s.mapRefs id).Agrees E' R (t.mapRefs id) := h.mapRefs hE
  rwa [mapRefs_id, mapRefs_id] at hsame

theorem Agrees.eq (h : s.Agrees Eq Eq t) : s = t := by
  cases h with
  | roundUp => rfl
  | atLeast hx => rw [hx]
  | choose href comparison hx hy hz => rw [href, hx, hy, hz]
  | reuse href => rw [href]
  | chain hleft op hright =>
    cases hright with
    | number hx => rw [eq_of_rel hleft, hx]
    | ref hname => rw [eq_of_rel hleft, hname]

theorem mapRefs_of_agrees {ns : Namespaces} (h : s.Agrees ns.SameFull Eq t) :
    s.mapRefs ns.extend = t.mapRefs ns.extend := by
  have hfull : (s.mapRefs ns.extend).Agrees Eq Eq (t.mapRefs ns.extend) :=
    h.mapRefs fun _ _ hsame => hsame
  exact hfull.eq

end Agrees

end Step

namespace Rule

variable {ns : Namespaces} {rule rule' : String} {s t : Step}

/-- Rules whose steps have the same identifiers in full form have one normal form. -/
theorem normalizeText_of_agrees (hs : Step.ofText rule = .ok s) (ht : Step.ofText rule' = .ok t)
    (h : s.Agrees ns.SameFull Eq t) :
    normalizeText ns.extend rule = normalizeText ns.extend rule' := by
  unfold normalizeText
  rw [hs, ht]
  exact congrArg Step.toText (Step.mapRefs_of_agrees h)

end Rule
end FormulaGraph
