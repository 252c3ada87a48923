import FormulaGraph.Proofs.Double.Numerals
import FormulaGraph.Proofs.Rule.RoundTrip

/-! The grammar of rules as derivations, and the parser against it: a text is read as a step exactly
if it derives that step without the blanks around it. -/
namespace FormulaGraph

open Text Double

def Text.IsBlanks (cs : List Char) : Prop := ∀ c ∈ cs, isBlank c = true

/-- What can stand between brackets as a reference, and what it refers to. -/
structure IsName (name : List Char) (ref : String) : Prop where
  nonempty : name ≠ []
  unbracketed : ∀ c ∈ name, c ≠ '[' ∧ c ≠ ']'
  trimmed : ref = String.ofList (trimChars name)

/-- A plain number between blanks. -/
inductive IsArgument : List Char → Float → Prop where
  | mk {before n after : List Char} {x : Float} (hb : IsBlanks before) (plain : IsPlainText n)
    (value : number? n = some x) (ha : IsBlanks after) : IsArgument (before ++ (n ++ after)) x

/-- An operand: a bracketed reference on one line, a finite number in any notation, or another text
without blanks, brackets, parentheses and commas, which is an identifier. -/
inductive Term.Derives : List Char → Term → Prop where
  | bracketed {name : List Char} {ref : String} (h : IsName name ref) (line : '\n' ∉ name) :
    Derives ('[' :: (name ++ [']'])) (.ref ref)
  | number {cs : List Char} {x : Float} (h : finite? cs = some x) : Derives cs (.number x)
  | identifier {cs : List Char} (ne : cs ≠ [])
    (h : ∀ c ∈ cs, isBlank c = false ∧ c ∉ ['[', ']', '(', ')', ',']) (other : finite? cs = none) :
    Derives cs (.ref (String.ofList cs))

/-- What stands behind `IF(`. -/
inductive Step.IsChoice : List Char → Step → Prop where
  | mk {ws name ws' a b c : List Char} {ref : String} {x y z : Float} (hw : IsBlanks ws)
    (href : IsName name ref) (hw' : IsBlanks ws') (comparison : Comparison) (ha : IsArgument a x)
    (hb : IsArgument b y) (hc : IsArgument c z) :
    IsChoice (ws ++ '[' :: (name ++ ']' :: (ws' ++ comparison.symbol ::
      (a ++ ',' :: (b ++ ',' :: (c ++ [')'])))))) (.choose ref comparison x y z)

/-- The six forms of a rule. -/
inductive Step.Derives : List Char → Step → Prop where
  | roundUp : Derives "ROUNDUP".toList .roundUp
  | atLeast {ws a : List Char} {x : Float} (hw : IsBlanks ws) (ha : IsArgument a x) :
    Derives ("MAX(result".toList ++ (ws ++ ',' :: (a ++ [')']))) (.atLeast x)
  | choose {cs : List Char} {step : Step} (h : IsChoice cs step) :
    Derives ("IF(".toList ++ cs) step
  | reuse {name : List Char} {ref : String} (href : IsName name ref) :
    Derives ('[' :: (name ++ [']'])) (.reuse ref)
  | start {name ws ws' operand : List Char} {ref : String} {right : Term} (href : IsName name ref)
    (hw : IsBlanks ws) (op : Op) (hw' : IsBlanks ws') (hright : Term.Derives operand right) :
    Derives ('[' :: (name ++ ']' :: (ws ++ op.symbol :: (ws' ++ operand))))
      (.chain (some ref) op right)
  | resume {ws operand : List Char} {right : Term} (op : Op) (hw : IsBlanks ws)
    (hright : Term.Derives operand right) :
    Derives (op.symbol :: (ws ++ operand)) (.chain none op right)

namespace Step

variable {cs rest ws : List Char} {c : Char} {x : Float} {rule ref : String}

theorem exists_skipBlanks (cs : List Char) : ∃ ws, IsBlanks ws ∧ cs = ws ++ skipBlanks cs :=
  ⟨cs.takeWhile isBlank, fun _ hc => List.mem_takeWhile_imp hc,
    List.takeWhile_append_dropWhile.symm⟩

theorem skipBlanks_append (hw : IsBlanks ws) (h : ∀ c ∈ cs.head?, isBlank c = false) :
    skipBlanks (ws ++ cs) = cs := by
  unfold skipBlanks
  rw [List.dropWhile_append_of_pos hw, dropWhile_of_head? h]

theorem expect?_eq_some_iff : expect? c cs = some rest ↔ cs = c :: rest := by
  cases cs with
  | nil => simp [expect?]
  | cons d cs => simp [expect?]

theorem expect?_skipBlanks_iff (hc : isBlank c = false) :
    expect? c (skipBlanks cs) = some rest ↔ ∃ ws, IsBlanks ws ∧ cs = ws ++ c :: rest := by
  rw [expect?_eq_some_iff]
  constructor
  · intro h
    obtain ⟨ws, hw, hcs⟩ := exists_skipBlanks cs
    exact ⟨ws, hw, h ▸ hcs⟩
  · rintro ⟨ws, hw, rfl⟩
    exact skipBlanks_append hw fun d hd => by rwa [← Option.some.inj hd]

theorem isBracket_eq_false_iff : isBracket c = false ↔ c ≠ '[' ∧ c ≠ ']' := by
  simp [isBracket]

theorem bracketed?_iff : bracketed? cs = some (ref, rest) ↔
    ∃ name, IsName name ref ∧ cs = '[' :: (name ++ ']' :: rest) := by
  constructor
  · intro h
    unfold bracketed? at h
    split at h
    · rename_i cs
      dsimp only at h
      split at h
      · rename_i rest' hdrop
        split at h
        · contradiction
        · rename_i hne
          obtain ⟨rfl, rfl⟩ := Prod.mk.inj (Option.some.inj h)
          refine ⟨cs.takeWhile (!isBracket ·), ⟨by simpa using hne, fun c hc => ?_, rfl⟩, ?_⟩
          · have hc' : (!isBracket c) = true := @List.mem_takeWhile_imp _ (!isBracket ·) _ _ hc
            exact isBracket_eq_false_iff.1 (by simpa using hc')
          · rw [← hdrop, List.takeWhile_append_dropWhile]
      · contradiction
    · contradiction
  · rintro ⟨name, href, rfl⟩
    have hall : ∀ c ∈ name, (!isBracket c) = true := fun c hc => by
      rw [isBracket_eq_false_iff.2 (href.unbracketed c hc)]
      rfl
    have htake : (name ++ ']' :: rest).takeWhile (!isBracket ·) = name := by
      rw [List.takeWhile_append_of_pos hall]
      exact List.append_nil _
    have hdrop : (name ++ ']' :: rest).dropWhile (!isBracket ·) = ']' :: rest := by
      rw [List.dropWhile_append_of_pos hall]
      rfl
    unfold bracketed?
    simp only [htake, hdrop, List.isEmpty_iff, href.nonempty, if_false, href.trimmed]

theorem bracketed?_skipBlanks_iff : bracketed? (skipBlanks cs) = some (ref, rest) ↔
    ∃ ws name, IsBlanks ws ∧ IsName name ref ∧ cs = ws ++ '[' :: (name ++ ']' :: rest) := by
  rw [bracketed?_iff]
  constructor
  · rintro ⟨name, href, h⟩
    obtain ⟨ws, hw, hcs⟩ := exists_skipBlanks cs
    exact ⟨ws, name, hw, href, h ▸ hcs⟩
  · rintro ⟨ws, name, hw, href, rfl⟩
    exact ⟨name, href, skipBlanks_append hw fun d hd => by rw [← Option.some.inj hd]; decide⟩

theorem comparison?_skipBlanks_iff {comparison : Comparison} :
    comparison? (skipBlanks cs) = some (comparison, rest) ↔
      ∃ ws, IsBlanks ws ∧ cs = ws ++ comparison.symbol :: rest := by
  constructor
  · intro h
    obtain ⟨ws, hw, hcs⟩ := exists_skipBlanks cs
    refine ⟨ws, hw, ?_⟩
    cases hskip : skipBlanks cs with
    | nil =>
      rw [hskip] at h
      contradiction
    | cons d tail =>
      rw [hskip] at h hcs
      obtain ⟨comparison', hsymbol, heq⟩ := Option.map_eq_some_iff.1 h
      obtain ⟨rfl, rfl⟩ := Prod.mk.inj heq
      have hd : comparison'.symbol = d := by simpa using List.find?_some hsymbol
      rw [hd, hcs]
  · rintro ⟨ws, hw, rfl⟩
    rw [skipBlanks_append hw fun d hd => by rw [← Option.some.inj hd]; cases comparison <;> decide]
    cases comparison <;> rfl

/-- A number and the character behind it are found where an argument ends with it. -/
theorem exists_mid_of_argument (hc : isBlank c = false) (hd : isDigit c = false) (hdot : c ≠ '.')
    {a : List Char} (ha : IsArgument a x) (rest : List Char) :
    ∃ mid, literal? (skipBlanks (a ++ c :: rest)) = some (x, mid) ∧
      expect? c (skipBlanks mid) = some rest := by
  cases ha with
  | @mk before n after _ hb hplain hvalue ha =>
  obtain ⟨d, tail, hn, hblank⟩ := hplain.exists_cons
  obtain ⟨y, hy, hread⟩ := hplain.literal?
  obtain rfl : y = x := Option.some.inj (hy.symm.trans hvalue)
  have hskip : skipBlanks (before ++ (n ++ after) ++ c :: rest) = n ++ (after ++ c :: rest) := by
    rw [List.append_assoc, List.append_assoc]
    refine skipBlanks_append hb fun e he => ?_
    rw [hn] at he
    rwa [← Option.some.inj he]
  have hhead : ∀ e ∈ (after ++ c :: rest).head?, isDigit e = false ∧ e ≠ '.' := by
    intro e he
    cases after with
    | nil =>
      obtain rfl := Option.some.inj he
      exact ⟨hd, hdot⟩
    | cons b after =>
      obtain rfl := Option.some.inj he
      have hb' := ha b (by simp)
      refine ⟨?_, by rintro rfl; contradiction⟩
      by_contra hdigit
      rw [isBlank_of_isDigit (by simpa using hdigit)] at hb'
      contradiction
  refine ⟨after ++ c :: rest, ?_, (expect?_skipBlanks_iff hc).2 ⟨after, ha, rfl⟩⟩
  rw [hskip]
  exact hread _ (fun e he => (hhead e he).1) fun heq => (hhead '.' heq).2 rfl

theorem exists_argument (hc : isBlank c = false) {mid : List Char}
    (hread : literal? (skipBlanks cs) = some (x, mid))
    (hend : expect? c (skipBlanks mid) = some rest) : ∃ a, IsArgument a x ∧ cs = a ++ c :: rest := by
  obtain ⟨before, hb, hcs⟩ := exists_skipBlanks cs
  obtain ⟨n, hn, hplain, hvalue⟩ := literal?_sound hread
  obtain ⟨after, ha, hmid⟩ := (expect?_skipBlanks_iff hc).1 hend
  refine ⟨_, .mk hb hplain hvalue ha, ?_⟩
  rw [hcs, hn, hmid]
  simp

theorem threshold?_iff : threshold? cs = some x ↔
    ∃ ws a, IsBlanks ws ∧ IsArgument a x ∧ cs = ws ++ ',' :: (a ++ [')']) := by
  unfold threshold?
  simp only [Option.bind_eq_bind, Option.bind_eq_some_iff]
  constructor
  · rintro ⟨cs₁, hcomma, ⟨y, mid⟩, hread, cs₂, hend, h⟩
    dsimp only at hend h
    split at h
    · rename_i hempty
      obtain rfl := Option.some.inj h
      obtain rfl := List.isEmpty_iff.1 hempty
      obtain ⟨ws, hw, rfl⟩ := (expect?_skipBlanks_iff (by decide)).1 hcomma
      obtain ⟨a, ha, rfl⟩ := exists_argument (by decide) hread hend
      exact ⟨ws, a, hw, ha, rfl⟩
    · contradiction
  · rintro ⟨ws, a, hw, ha, rfl⟩
    obtain ⟨mid, hread, hend⟩ :=
      exists_mid_of_argument (c := ')') (by decide) (by decide) (by decide) ha []
    exact ⟨_, (expect?_skipBlanks_iff (by decide)).2 ⟨ws, hw, rfl⟩, (x, mid), hread, [], hend, rfl⟩

theorem choice?_iff {s : Step} : choice? cs = some s ↔ IsChoice cs s := by
  unfold choice? nextNumber?
  simp only [Option.bind_eq_bind, Option.bind_eq_some_iff]
  constructor
  · rintro ⟨⟨ref, cs₁⟩, href, ⟨comparison, cs₂⟩, hcomparison, ⟨x, cs₃⟩, hx, ⟨y, cs₄⟩,
      ⟨cs₅, hcomma, hy⟩, ⟨z, cs₆⟩, ⟨cs₇, hcomma', hz⟩, cs₈, hend, h⟩
    dsimp only at *
    split at h
    · rename_i hempty
      obtain rfl := Option.some.inj h
      obtain rfl := List.isEmpty_iff.1 hempty
      obtain ⟨ws, name, hw, hname, rfl⟩ := bracketed?_skipBlanks_iff.1 href
      obtain ⟨ws', hw', rfl⟩ := comparison?_skipBlanks_iff.1 hcomparison
      obtain ⟨a, ha, rfl⟩ := exists_argument (by decide) hx hcomma
      obtain ⟨b, hb, rfl⟩ := exists_argument (by decide) hy hcomma'
      obtain ⟨c, hc, rfl⟩ := exists_argument (by decide) hz hend
      exact .mk hw hname hw' comparison ha hb hc
    · contradiction
  · rintro ⟨hw, href, hw', comparison, ha, hb, hc⟩
    obtain ⟨mid₁, hx, hcomma⟩ :=
      exists_mid_of_argument (c := ',') (by decide) (by decide) (by decide) ha _
    obtain ⟨mid₂, hy, hcomma'⟩ :=
      exists_mid_of_argument (c := ',') (by decide) (by decide) (by decide) hb _
    obtain ⟨mid₃, hz, hend⟩ :=
      exists_mid_of_argument (c := ')') (by decide) (by decide) (by decide) hc _
    exact ⟨(_, _), bracketed?_skipBlanks_iff.2 ⟨_, _, hw, href, rfl⟩, (_, _),
      comparison?_skipBlanks_iff.2 ⟨_, hw', rfl⟩, (_, mid₁), hx, (_, mid₂), ⟨_, hcomma, hy⟩,
      (_, mid₃), ⟨_, hcomma', hz⟩, [], hend, rfl⟩

theorem isIdentifierChar_iff :
    isIdentifierChar c = true ↔ isBlank c = false ∧ c ∉ ['[', ']', '(', ')', ','] := by
  simp only [isIdentifierChar, isBracket, Bool.not_eq_true', Bool.or_eq_false_iff,
    beq_eq_false_iff_ne, List.mem_cons, List.not_mem_nil, or_false, not_or, ne_eq, and_assoc]

theorem derives_of_term? {t : Term} (h : term? cs = some t) (hline : '\n' ∉ cs) :
    Term.Derives cs t := by
  unfold term? at h
  split at h
  · rename_i ref hb
    obtain rfl := Option.some.inj h
    obtain ⟨name, href, rfl⟩ := bracketed?_iff.1 hb
    exact .bracketed href fun hmem => hline (by simp [hmem])
  · split at h
    · rename_i y hy
      obtain rfl := Option.some.inj h
      exact .number hy
    · rename_i hy
      split at h
      · rename_i hid
        obtain rfl := Option.some.inj h
        rw [Bool.and_eq_true, Bool.not_eq_true', List.isEmpty_eq_false_iff, List.all_eq_true] at hid
        exact .identifier hid.1 (fun c hc => isIdentifierChar_iff.1 (hid.2 c hc)) hy
      · contradiction

structure IsOperand (cs : List Char) (t : Term) : Prop where
  nonempty : cs ≠ []
  head : ∀ c ∈ cs.head?, isBlank c = false
  last : ∀ c ∈ cs.getLast?, isBlank c = false
  line : '\n' ∉ cs
  read : term? cs = some t

/-- The number of a text is that of the text without the blanks around it, and it has no others. -/
theorem exists_isOperand_of_finite? (h : finite? cs = some x) :
    ∃ lead core trail, IsBlanks lead ∧ IsBlanks trail ∧ cs = lead ++ (core ++ trail) ∧
      IsOperand core (.number x) := by
  obtain ⟨lead, trail, hl, ht, hcs⟩ := exists_trimBy isNumberBlank cs
  have hblank : ∀ c, isNumberBlank c = true → isBlank c = true := fun c hc =>
    (Bool.and_eq_true_iff.1 hc).1
  have hchar : ∀ c ∈ trimBy isNumberBlank cs, IsNumberChar c := by
    obtain ⟨hnumber, -⟩ := Option.filter_eq_some_iff.1 h
    exact isNumberChar_of_number? hnumber
  have hread : finite? (trimBy isNumberBlank cs) = some x := by
    rw [← h, finite?, finite?, number?, number?, trimBy_of_tidy (tidy_trimBy _ _)]
  have hbracketed : bracketed? (trimBy isNumberBlank cs) = none := by
    refine bracketed?_of_head? fun hhead => ?_
    rcases hchar '[' (List.mem_of_head? hhead) with hbracket | hbracket | hbracket
    all_goals exact absurd hbracket (by decide)
  refine ⟨lead, trimBy isNumberBlank cs, trail, fun c hc => hblank c (hl c hc),
    fun c hc => hblank c (ht c hc), hcs, ?_, ?_, ?_, ?_, ?_⟩
  · intro hnil
    have hnone : finite? [] = none := rfl
    rw [hnil, hnone] at hread
    cases hread
  · exact fun c hc => (hchar c (List.mem_of_head? hc)).isBlank_eq
  · exact fun c hc => (hchar c (List.mem_of_getLast? hc)).isBlank_eq
  · exact fun hmem => absurd (hchar _ hmem).isBlank_eq (by decide)
  · rw [term?, hbracketed]
    dsimp only
    rw [hread]

theorem exists_isOperand {t : Term} (h : Term.Derives cs t) :
    ∃ lead core trail, IsBlanks lead ∧ IsBlanks trail ∧ cs = lead ++ (core ++ trail) ∧
      IsOperand core t := by
  have hall : ∀ {core : List Char} {t : Term}, IsOperand core t →
      ∃ lead core' trail, IsBlanks lead ∧ IsBlanks trail ∧ core = lead ++ (core' ++ trail) ∧
        IsOperand core' t := fun {core} {t} hcore =>
    ⟨[], core, [], nofun, nofun, by simp, hcore⟩
  cases h with
  | @bracketed name ref href line =>
    refine hall ⟨by simp, fun c hc => ?_, fun c hc => ?_, ?_, ?_⟩
    · rw [← Option.some.inj hc]
      decide
    · rw [← List.cons_append, List.getLast?_concat] at hc
      rw [← Option.some.inj hc]
      decide
    · simp [line]
    · rw [term?, bracketed?_iff.2 ⟨name, href, rfl⟩]
  | number h => exact exists_isOperand_of_finite? h
  | identifier ne hchar other =>
    refine hall ⟨ne, fun c hc => (hchar c (List.mem_of_head? hc)).1,
      fun c hc => (hchar c (List.mem_of_getLast? hc)).1, fun hmem => ?_, ?_⟩
    · exact absurd (hchar _ hmem).1 (by decide)
    · have hid : (!cs.isEmpty && cs.all isIdentifierChar) = true := by
        rw [Bool.and_eq_true, Bool.not_eq_true', List.isEmpty_eq_false_iff, List.all_eq_true]
        exact ⟨ne, fun c hc => isIdentifierChar_iff.2 (hchar c hc)⟩
      have hbracketed : bracketed? cs = none :=
        bracketed?_of_head? fun hhead => (hchar _ (List.mem_of_head? hhead)).2 (by decide)
      rw [term?, hbracketed]
      dsimp only
      rw [other]
      dsimp only
      rw [if_pos hid]

theorem operation?_append (hw : IsBlanks ws) (op : Op) {operand : List Char} {t : Term}
    (h : IsOperand operand t) : operation? (op.symbol :: (ws ++ operand)) = some (op, operand) := by
  have hop : Op.ofSymbol? op.symbol = some op := by cases op <;> rfl
  have hne : operand.isEmpty = false := List.isEmpty_eq_false_iff.2 h.nonempty
  have hline : operand.contains '\n' = false := by
    rw [List.contains_eq_mem, decide_eq_false_iff_not]
    exact h.line
  unfold operation?
  simp only [hop, Option.bind_eq_bind, Option.bind_some, skipBlanks_append hw h.head, hne, hline,
    Bool.or_self, Bool.false_eq_true, if_false]

theorem chain?_append (hw : IsBlanks ws) (left : Option String) (op : Op) {operand : List Char}
    {t : Term} (h : IsOperand operand t) :
    chain? rule left (op.symbol :: (ws ++ operand)) = some (.ok (chain left op t)) := by
  rw [chain?, operation?_append hw op h, Option.map_some]
  dsimp only
  rw [h.read]

theorem chain?_derives {left : Option String} {s : Step} (h : chain? rule left cs = some (.ok s)) :
    ∃ op ws operand t, IsBlanks ws ∧ Term.Derives operand t ∧
      cs = op.symbol :: (ws ++ operand) ∧ s = chain left op t := by
  obtain ⟨⟨op, operand⟩, hop, h⟩ := Option.map_eq_some_iff.1 h
  dsimp only at h
  split at h
  · rename_i t hterm
    have hline := operation?_sound hop
    cases cs with
    | nil => contradiction
    | cons c tail =>
      obtain ⟨op', hsymbol, hop⟩ := Option.bind_eq_some_iff.1 hop
      dsimp only at hop
      split at hop
      · contradiction
      · obtain ⟨rfl, rfl⟩ := Prod.mk.inj (Option.some.inj hop)
        obtain ⟨ws, hw, htail⟩ := exists_skipBlanks tail
        have hc : op'.symbol = c := by simpa using List.find?_some hsymbol
        exact ⟨op', ws, _, t, hw, derives_of_term? hterm hline, by rw [hc, ← htail],
          (Except.ok.inj h).symm⟩
  · contradiction

theorem simple?_derives {s : Step} (h : simple? rule cs = some (.ok s)) : Derives cs s := by
  unfold simple? at h
  split at h
  · rename_i ref hb
    obtain ⟨name, href, rfl⟩ := bracketed?_iff.1 hb
    obtain rfl := Except.ok.inj (Option.some.inj h)
    exact .reuse href
  · rename_i ref rest hrest hb
    obtain ⟨name, href, rfl⟩ := bracketed?_iff.1 hb
    obtain ⟨op, ws', operand, t, hw', ht, hskip, rfl⟩ := chain?_derives h
    obtain ⟨ws, hw, hws⟩ := exists_skipBlanks rest
    rw [hws, hskip]
    exact .start href hw op hw' ht
  · obtain ⟨op, ws, operand, t, hw, ht, rfl, rfl⟩ := chain?_derives h
    exact .resume op hw ht

theorem simple?_of_bracketed? (hb : bracketed? cs = some (ref, rest)) (hrest : rest ≠ []) :
    simple? rule cs = chain? rule (some ref) (skipBlanks rest) := by
  unfold simple?
  rw [hb]
  cases rest with
  | nil => contradiction
  | cons c rest => rfl

theorem simple?_of_head? (h : cs.head? ≠ some '[') : simple? rule cs = chain? rule none cs := by
  rw [simple?, bracketed?_of_head? h]

theorem derives_of_ofTrimmed {s : Step} (h : ofTrimmed cs = .ok s) : Derives cs s := by
  unfold ofTrimmed at h
  dsimp only at h
  split at h
  · rename_i hcs
    rw [← Except.ok.inj h, hcs]
    exact .roundUp
  split at h
  · rename_i rest hrest
    obtain rfl := afterWord?_sound hrest
    split at h
    · rename_i x hx
      obtain rfl := Except.ok.inj h
      obtain ⟨ws, a, hw, ha, rfl⟩ := threshold?_iff.1 hx
      exact .atLeast hw ha
    · contradiction
  split at h
  · rename_i step hstep
    obtain rfl := Except.ok.inj h
    obtain ⟨rest, hrest, hchoice⟩ := Option.bind_eq_some_iff.1 hstep
    obtain rfl := afterWord?_sound hrest
    exact .choose (choice?_iff.1 hchoice)
  · cases hsimple : simple? (String.ofList cs) cs with
    | none =>
      rw [hsimple] at h
      contradiction
    | some result =>
      rw [hsimple] at h
      obtain rfl : result = .ok s := h
      exact simple?_derives hsimple

/-- Only what stands behind the last character that is no blank is taken off. -/
theorem trimChars_append {front last trail : List Char} (hne : front ≠ [])
    (hfront : ∀ c ∈ front.head?, isBlank c = false) (hne' : last ≠ [])
    (hlast : ∀ c ∈ last.getLast?, isBlank c = false) (ht : IsBlanks trail) :
    trimChars (front ++ (last ++ trail)) = front ++ last := by
  have htidy : Tidy isBlank (front ++ last) := by
    constructor
    · intro c hc
      rw [List.head?_append_of_ne_nil _ hne] at hc
      exact hfront c hc
    · intro c hc
      rw [List.getLast?_append_of_ne_nil _ hne'] at hc
      exact hlast c hc
  rw [← List.append_assoc]
  exact trimBy_append (fun c hc => absurd hc List.not_mem_nil) ht htidy

theorem ofText_of_trimChars {s : Step} (hne : trimChars cs ≠ [])
    (h : ofTrimmed (trimChars cs) = .ok s) : ofText (String.ofList cs) = .ok s := by
  unfold ofText
  simp only [String.toList_ofList, List.isEmpty_iff, hne, if_false, h]

/-- A text between two characters that are no blanks is read as it is. -/
theorem ofText_of_enclosed {s : Step} (c d : Char) (mid : List Char) (hcs : cs = c :: (mid ++ [d]))
    (hc : isBlank c = false) (hd : isBlank d = false) (h : ofTrimmed cs = .ok s) :
    ofText (String.ofList cs) = .ok s := by
  have htidy : Tidy isBlank cs := by
    rw [hcs]
    refine ⟨fun e he => by rwa [← Option.some.inj he], fun e he => ?_⟩
    rw [← List.cons_append, List.getLast?_concat] at he
    rwa [← Option.some.inj he]
  have htrim : trimChars cs = cs := trimBy_of_tidy htidy
  exact ofText_of_trimChars (by rw [htrim, hcs]; exact List.cons_ne_nil _ _) (htrim.symm ▸ h)

theorem IsChoice.exists_append {s : Step} (h : IsChoice cs s) : ∃ mid, cs = mid ++ [')'] := by
  cases h with
  | @mk ws name ws' a b c ref x y z hw href hw' comparison ha hb hc =>
    exact ⟨ws ++ '[' :: (name ++ ']' :: (ws' ++ comparison.symbol ::
      (a ++ ',' :: (b ++ ',' :: c)))), by simp⟩

/-- A rule that ends with an operand is read if it is without the blanks around the operand. -/
theorem ofText_of_operand {s : Step} {front operand : List Char} {t : Term} (hne : front ≠ [])
    (hfront : ∀ c ∈ front.head?, isBlank c = false) (hw : IsBlanks ws)
    (ht : Term.Derives operand t)
    (h : ∀ ws core, IsBlanks ws → IsOperand core t → ofTrimmed (front ++ (ws ++ core)) = .ok s) :
    ofText (String.ofList (front ++ (ws ++ operand))) = .ok s := by
  obtain ⟨lead, core, trail, hl, htrail, rfl, hcore⟩ := exists_isOperand ht
  have hblanks : IsBlanks (ws ++ lead) := fun c hc => (List.mem_append.1 hc).elim (hw c) (hl c)
  have htrim : trimChars (front ++ (ws ++ (lead ++ (core ++ trail)))) =
      front ++ ((ws ++ lead) ++ core) := by
    have hne' : front ++ (ws ++ lead) ≠ [] := by simp [hne]
    have h := trimChars_append hne' (fun c hc => hfront c (by
      rwa [List.head?_append_of_ne_nil _ hne] at hc)) hcore.nonempty hcore.last htrail
    simpa using h
  refine ofText_of_trimChars ?_ (htrim.symm ▸ h (ws ++ lead) core hblanks hcore)
  rw [htrim]
  simp [hne]

/-- The parser reads what has a derivation. -/
theorem ofText_of_derives {s : Step} (h : Derives cs s) : ofText (String.ofList cs) = .ok s := by
  cases h with
  | roundUp => rfl
  | @atLeast ws a x hw ha =>
    exact ofText_of_enclosed 'M' ')' ("AX(result".toList ++ (ws ++ ',' :: a)) (by simp)
      (by decide) (by decide)
      ((ofTrimmed_max _).2 ⟨x, threshold?_iff.2 ⟨ws, a, hw, ha, rfl⟩, rfl⟩)
  | choose h =>
    obtain ⟨mid, rfl⟩ := h.exists_append
    exact ofText_of_enclosed 'I' ')' ("F(".toList ++ mid) (by simp) (by decide) (by decide)
      ((ofTrimmed_if _).2 (choice?_iff.2 h))
  | @reuse name ref href =>
    refine ofText_of_enclosed '[' ']' name rfl (by decide) (by decide)
      ((ofTrimmed_simple (by decide) _).2 ?_)
    unfold simple?
    rw [bracketed?_iff.2 ⟨name, href, rfl⟩]
  | @start name ws ws' operand ref right href hw op hw' hright =>
    have hfront : '[' :: (name ++ ']' :: (ws ++ op.symbol :: (ws' ++ operand))) =
        ('[' :: (name ++ ']' :: (ws ++ [op.symbol]))) ++ (ws' ++ operand) := by simp
    rw [hfront]
    refine ofText_of_operand (by simp) (fun c hc => ?_) hw' hright fun ws' core hw' hcore => ?_
    · rw [← Option.some.inj hc]
      decide
    · rw [List.cons_append, List.append_assoc, List.cons_append, List.append_assoc]
      refine (ofTrimmed_simple (by decide) _).2 ?_
      have hskip : skipBlanks (ws ++ op.symbol :: (ws' ++ core)) = op.symbol :: (ws' ++ core) :=
        skipBlanks_append hw fun d hd => by rw [← Option.some.inj hd]; cases op <;> decide
      rw [simple?_of_bracketed? (bracketed?_iff.2 ⟨name, href, rfl⟩) (by simp)]
      exact hskip ▸ chain?_append hw' _ op hcore
  | @resume ws operand right op hw hright =>
    have hfront : op.symbol :: (ws ++ operand) = [op.symbol] ++ (ws ++ operand) := rfl
    rw [hfront]
    refine ofText_of_operand (by simp) (fun c hc => ?_) hw hright fun ws core hw hcore => ?_
    · rw [← Option.some.inj hc]
      cases op <;> decide
    · refine (ofTrimmed_simple (op_ne_letter op) _).2 ?_
      have hhead : ([op.symbol] ++ (ws ++ core)).head? ≠ some '[' := by
        cases op <;> simp [Op.symbol]
      exact (simple?_of_head? hhead).trans (chain?_append hw none op hcore)

theorem trimChars_trimChars (cs : List Char) : trimChars (trimChars cs) = trimChars cs :=
  trimBy_of_tidy (tidy_trimBy _ _)

/-- A rule is read as a step exactly if it derives that step once it is trimmed, and every text
derives at most one step. Whatever has no derivation is reported as an error. -/
theorem ofRule_iff_derives :
    (∀ v s, ofRule v = .ok s ↔ ∃ rule, v = .text rule ∧ Derives (trimChars rule.toList) s) ∧
    (∀ cs s t, Derives cs s → Derives cs t → s = t) ∧
    ∀ v, (¬ ∃ rule s, v = .text rule ∧ Derives (trimChars rule.toList) s) →
      ∃ e, ofRule v = .error e := by
  have hcomplete : ∀ {rule : String} {s : Step}, Derives (trimChars rule.toList) s →
      ofText rule = .ok s := by
    intro rule s h
    have hread := ofText_of_derives h
    unfold ofText at hread ⊢
    rwa [String.toList_ofList, trimChars_trimChars] at hread
  have hiff : ∀ v s, ofRule v = .ok s ↔
      ∃ rule, v = .text rule ∧ Derives (trimChars rule.toList) s := by
    intro v s
    constructor
    · intro h
      cases v with
      | text rule =>
        refine ⟨rule, rfl, ?_⟩
        unfold ofRule ofText at h
        dsimp only at h
        split at h
        · contradiction
        · exact derives_of_ofTrimmed h
      | _ => contradiction
    · rintro ⟨rule, rfl, h⟩
      exact hcomplete h
  refine ⟨hiff, fun cs s t hs ht => ?_, fun v hnone => ?_⟩
  · exact Except.ok.inj ((ofText_of_derives hs).symm.trans (ofText_of_derives ht))
  · cases hread : ofRule v with
    | error e => exact ⟨e, rfl⟩
    | ok s =>
      obtain ⟨rule, hv, h⟩ := (hiff v s).1 hread
      exact absurd ⟨rule, s, hv, h⟩ hnone

/-- A rule with blanks around it and inside, whose operand is an identifier. -/
theorem ofRule_offset : Derives "[stat:a] - stat:offset".toList
      (.chain (some "stat:a") .sub (.ref "stat:offset")) ∧
    ofRule (.text " [stat:a] - stat:offset\n") =
      .ok (.chain (some "stat:a") .sub (.ref "stat:offset")) := by
  have hname : IsName "stat:a".toList "stat:a" := ⟨by decide, by simp, by decide +kernel⟩
  have hspace : IsBlanks [' '] := fun c hc => by
    rw [List.mem_singleton.1 hc]
    decide
  have hchar : ∀ c ∈ "stat:offset".toList, isIdentifierChar c = true :=
    List.all_eq_true.1 (by decide +kernel)
  have hother : finite? "stat:offset".toList = none :=
    Option.isNone_iff_eq_none.1 (by decide +kernel)
  have hright := Term.Derives.identifier (by decide)
    (fun c hc => isIdentifierChar_iff.1 (hchar c hc)) hother
  have hderives := Derives.start hname hspace .sub hspace hright
  have htrim : trimChars " [stat:a] - stat:offset\n".toList =
      "[stat:a] - stat:offset".toList := by decide +kernel
  rw [String.ofList_toList] at hderives
  exact ⟨hderives, (ofRule_iff_derives.1 _ _).2 ⟨_, rfl, htrim ▸ hderives⟩⟩

end Step
end FormulaGraph
