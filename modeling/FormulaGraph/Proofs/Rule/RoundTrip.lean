import FormulaGraph.Proofs.Rule.Number
import FormulaGraph.Proofs.Rule.Parser

/-! Writing a step and reading it again. -/
namespace FormulaGraph

open Text Double

/-- Terms of one kind whose references and numbers are related. -/
inductive Term.Agrees (E : String → String → Prop) (R : Float → Float → Prop) : Term → Term → Prop
  | number {x y : Float} (h : R x y) : Term.Agrees E R (.number x) (.number y)
  | ref {name name' : String} (h : E name name') : Term.Agrees E R (.ref name) (.ref name')

/-- Steps of one kind whose references and numbers are related. -/
inductive Step.Agrees (E : String → String → Prop) (R : Float → Float → Prop) : Step → Step → Prop
  | roundUp : Step.Agrees E R .roundUp .roundUp
  | atLeast {x y : Float} (h : R x y) : Step.Agrees E R (.atLeast x) (.atLeast y)
  | choose {ref ref' : String} (href : E ref ref') (comparison : Comparison)
      {x x' y y' z z' : Float} (hx : R x x') (hy : R y y') (hz : R z z') :
      Step.Agrees E R (.choose ref comparison x y z) (.choose ref' comparison x' y' z')
  | reuse {ref ref' : String} (href : E ref ref') : Step.Agrees E R (.reuse ref) (.reuse ref')
  | chain {left left' : Option String} (hleft : Option.Rel E left left') (op : Op) {t u : Term}
      (h : t.Agrees E R u) : Step.Agrees E R (.chain left op t) (.chain left' op u)

def Step.constants : Step → List Float
  | atLeast x => [x]
  | choose _ _ x y z => [x, y, z]
  | _ => []

def Step.operand? : Step → Option Float
  | chain _ _ (.number x) => some x
  | _ => none

/-- What an operand has to be like to be read again: any finite number, or a reference on one line
that can stand in brackets. -/
def Term.IsReadable : Term → Prop
  | number x => x.isFinite = true
  | ref name => IsCleanRef name ∧ '\n' ∉ name.toList

/-- What a step has to be like to be read again: its references can stand in brackets, and the
numbers of the first two forms are written without an exponent. -/
def Step.IsReadable : Step → Prop
  | roundUp => True
  | atLeast x => IsPlain x
  | choose ref _ x y z => IsCleanRef ref ∧ IsPlain x ∧ IsPlain y ∧ IsPlain z
  | reuse ref => IsCleanRef ref
  | chain left _ right => (∀ ref ∈ left, IsCleanRef ref) ∧ right.IsReadable

namespace Step

variable {x : Float} {cs rest : List Char} {c : Char}

theorem skipBlanks_cons (hc : isBlank c = false) (cs : List Char) :
    skipBlanks (c :: cs) = c :: cs := by
  unfold skipBlanks
  rw [List.dropWhile_cons_of_neg (by simp [hc])]

theorem skipBlanks_space (cs : List Char) : skipBlanks (' ' :: cs) = skipBlanks cs := rfl

theorem expect?_self (c : Char) (cs : List Char) : expect? c (c :: cs) = some cs := if_pos rfl

theorem skipBlanks_numberText (x : Float) (rest : List Char) :
    skipBlanks ((numberText x).toList ++ rest) = (numberText x).toList ++ rest := by
  have hw := written_numberText x
  obtain ⟨c, cs, heq, -⟩ := hw.exists_cons
  have hc : isBlank c = false := (hw.isTight c (by rw [heq]; exact List.mem_cons_self)).2
  rw [heq, List.cons_append, skipBlanks_cons hc]

/-- Where a comma or a parenthesis follows, no exponent does. -/
theorem head?_of_expect? (hc : c ≠ 'e') (h : expect? c (skipBlanks cs) = some rest) :
    cs.head? ≠ some 'e' := by
  intro hhead
  cases cs with
  | nil => contradiction
  | cons d cs =>
    obtain rfl := Option.some.inj hhead
    rw [skipBlanks_cons (by decide), expect?, if_neg (Ne.symm hc)] at h
    contradiction

theorem threshold?_numberText (hx : IsPlain x) :
    ∃ y, Alike x y ∧ threshold? (',' :: ((numberText x).toList ++ [')'])) = some y := by
  obtain ⟨y, hy, hread⟩ := (written_numberText x).literal? hx [')']
    (by simp [Stops]; decide) (by decide)
  refine ⟨y, hy, ?_⟩
  unfold threshold?
  rw [skipBlanks_cons (by decide), expect?_self]
  simp only [Option.bind_eq_bind, Option.bind_some, skipBlanks_numberText, hread]
  rfl

/-- A number that is read up to where a comma or a parenthesis is found is plain, and it is read
as far as it was written. -/
theorem literal?_numberText_sound {y : Float} {tail tail' : List Char} {d : Char}
    (h : literal? ((numberText x).toList ++ c :: rest) = some (y, tail)) (hc : isDigit c = false)
    (hc' : c ≠ '.') (hd : d ≠ 'e') (ht : expect? d (skipBlanks tail) = some tail') :
    IsPlain x ∧ tail = c :: rest := by
  have hw := written_numberText x
  have hx := hw.isPlain_of_literal? h (head?_of_expect? hd ht)
  obtain ⟨u, -, hu⟩ := hw.literal? hx (c :: rest) (by simp [Stops, hc]) (by simp [hc'])
  rw [hu] at h
  exact ⟨hx, (Prod.mk.inj (Option.some.inj h)).2.symm⟩

theorem isPlain_of_threshold? {y : Float}
    (h : threshold? (',' :: ((numberText x).toList ++ [')'])) = some y) : IsPlain x := by
  unfold threshold? at h
  rw [skipBlanks_cons (by decide), expect?_self] at h
  simp only [Option.bind_eq_bind, Option.bind_some, skipBlanks_numberText] at h
  obtain ⟨⟨z, tail⟩, hread, h⟩ := Option.bind_eq_some_iff.1 h
  obtain ⟨tail', hclose, -⟩ := Option.bind_eq_some_iff.1 h
  exact (literal?_numberText_sound hread (by decide) (by decide) (by decide) hclose).1

theorem nextNumber?_numberText (x : Float) (rest : List Char) :
    nextNumber? (',' :: ' ' :: ((numberText x).toList ++ rest)) =
      literal? ((numberText x).toList ++ rest) := by
  unfold nextNumber?
  rw [skipBlanks_cons (by decide), expect?_self]
  simp only [Option.bind_eq_bind, Option.bind_some, skipBlanks_space, skipBlanks_numberText]

theorem comparison?_symbol (comparison : Comparison) (cs : List Char) :
    comparison? (comparison.symbol :: cs) = some (comparison, cs) := by
  cases comparison <;> rfl

def choiceText (ref : String) (comparison : Comparison) (x y z : Float) : List Char :=
  '[' :: (ref.toList ++ ']' :: ' ' :: comparison.symbol :: ' ' :: ((numberText x).toList ++
    ',' :: ' ' :: ((numberText y).toList ++ ',' :: ' ' :: ((numberText z).toList ++ [')']))))

variable {ref rule : String} {comparison : Comparison} {y z : Float}

theorem skipBlanks_symbol (comparison : Comparison) (cs : List Char) :
    skipBlanks (comparison.symbol :: cs) = comparison.symbol :: cs := by
  cases comparison <;> rfl

theorem choice?_choiceText (comparison : Comparison) (href : IsCleanRef ref) (hx : IsPlain x)
    (hy : IsPlain y) (hz : IsPlain z) : ∃ x' y' z', Alike x x' ∧ Alike y y' ∧ Alike z z' ∧
      choice? (choiceText ref comparison x y z) = some (choose ref comparison x' y' z') := by
  obtain ⟨x', hx', hreadx⟩ := (written_numberText x).literal? hx
    (',' :: ' ' :: ((numberText y).toList ++ ',' :: ' ' :: ((numberText z).toList ++ [')'])))
    (by simp [Stops]; decide) (by simp)
  obtain ⟨y', hy', hready⟩ := (written_numberText y).literal? hy
    (',' :: ' ' :: ((numberText z).toList ++ [')'])) (by simp [Stops]; decide) (by simp)
  obtain ⟨z', hz', hreadz⟩ := (written_numberText z).literal? hz [')']
    (by simp [Stops]; decide) (by simp)
  refine ⟨x', y', z', hx', hy', hz', ?_⟩
  unfold choice? choiceText
  rw [skipBlanks_cons (by decide), bracketed?_complete href]
  simp only [Option.bind_eq_bind, Option.bind_some, skipBlanks_symbol, comparison?_symbol,
    skipBlanks_space, skipBlanks_numberText, hreadx, nextNumber?_numberText, hready, hreadz]
  rfl

theorem isReadable_of_choice? {s : Step} (href : IsParsedRef ref)
    (h : choice? (choiceText ref comparison x y z) = some s) :
    (choose ref comparison x y z).IsReadable := by
  have hclean : IsCleanRef ref := by
    refine isCleanRef_iff.2 ⟨?_, href⟩
    rintro rfl
    contradiction
  unfold choice? choiceText at h
  rw [skipBlanks_cons (by decide), bracketed?_complete hclean] at h
  simp only [Option.bind_eq_bind, Option.bind_some, skipBlanks_symbol, comparison?_symbol,
    skipBlanks_space, skipBlanks_numberText] at h
  obtain ⟨⟨u, cs₁⟩, hu, h⟩ := Option.bind_eq_some_iff.1 h
  obtain ⟨⟨v, cs₂⟩, hv, h⟩ := Option.bind_eq_some_iff.1 h
  obtain ⟨⟨w, cs₃⟩, hw, h⟩ := Option.bind_eq_some_iff.1 h
  obtain ⟨cs₄, hend, -⟩ := Option.bind_eq_some_iff.1 h
  -- that one number ends where the next one starts makes it plain, from left to right
  obtain ⟨cs₅, hcomma, -⟩ := Option.bind_eq_some_iff.1 hv
  obtain ⟨hx, rfl⟩ := literal?_numberText_sound hu (by decide) (by decide) (by decide) hcomma
  rw [nextNumber?_numberText] at hv
  obtain ⟨cs₆, hcomma', -⟩ := Option.bind_eq_some_iff.1 hw
  obtain ⟨hy, rfl⟩ := literal?_numberText_sound hv (by decide) (by decide) (by decide) hcomma'
  rw [nextNumber?_numberText] at hw
  obtain ⟨hz, -⟩ := literal?_numberText_sound hw (by decide) (by decide) (by decide) hend
  exact ⟨hclean, hx, hy, hz⟩

theorem afterWord?_append (word cs : List Char) : afterWord? word (word ++ cs) = some cs := by
  induction word with
  | nil => rfl
  | cons c word ih => rw [List.cons_append, afterWord?, expect?_self, Option.bind_some, ih]

theorem ofTrimmed_max (cs : List Char) {s : Step} :
    ofTrimmed (maxWord ++ cs) = .ok s ↔ ∃ x, threshold? cs = some x ∧ s = atLeast x := by
  have hword : maxWord ++ cs ≠ roundUpWord := by
    intro heq
    exact absurd (List.cons.inj heq).1 (by decide)
  unfold ofTrimmed
  simp only [hword, if_false, afterWord?_append]
  cases threshold? cs <;> simp [eq_comm]

theorem ofTrimmed_if (cs : List Char) {s : Step} :
    ofTrimmed (ifWord ++ cs) = .ok s ↔ choice? cs = some s := by
  have hword : ifWord ++ cs ≠ roundUpWord := by
    intro heq
    exact absurd (List.cons.inj heq).1 (by decide)
  have hmax : afterWord? maxWord (ifWord ++ cs) = none := rfl
  have hsimple : ∀ rule, simple? rule (ifWord ++ cs) = none := fun _ => rfl
  unfold ofTrimmed
  simp only [hword, if_false, hmax, afterWord?_append, Option.bind_some, hsimple]
  cases choice? cs <;> simp

/-- Without a letter in front, only the forms without a word are left. -/
theorem ofTrimmed_simple (hc : c ≠ 'R' ∧ c ≠ 'M' ∧ c ≠ 'I') (cs : List Char) {s : Step} :
    ofTrimmed (c :: cs) = .ok s ↔ simple? (String.ofList (c :: cs)) (c :: cs) = some (.ok s) := by
  obtain ⟨hR, hM, hI⟩ := hc
  have hword : c :: cs ≠ roundUpWord := fun heq => hR (List.cons.inj heq).1
  have hmax : afterWord? maxWord (c :: cs) = none := by
    have h : expect? 'M' (c :: cs) = none := if_neg hM
    exact congrArg (·.bind (afterWord? "AX(result".toList)) h
  have hif : afterWord? ifWord (c :: cs) = none := by
    have h : expect? 'I' (c :: cs) = none := if_neg hI
    exact congrArg (·.bind (afterWord? "F(".toList)) h
  unfold ofTrimmed
  simp only [hword, if_false, hmax, hif, Option.bind_none]
  cases simple? (String.ofList (c :: cs)) (c :: cs) with
  | none => simp
  | some r => simp

def termText : Term → List Char
  | .ref name => '[' :: (name.toList ++ [']'])
  | .number x => (numberText x).toList

theorem term?_termText {t : Term} (ht : t.IsReadable) :
    ∃ u, t.Agrees Eq Alike u ∧ term? (termText t) = some u := by
  cases t with
  | ref name =>
    refine ⟨.ref name, .ref rfl, ?_⟩
    unfold term? termText
    rw [bracketed?_complete ht.1]
  | number x =>
    have hw := written_numberText x
    obtain ⟨y, hy, hread⟩ := hw.finite? ht
    obtain ⟨c, cs, heq, hc⟩ := hw.exists_cons
    have hhead : (numberText x).toList.head? ≠ some '[' := by
      rw [heq]
      exact fun h => hc (Option.some.inj h)
    refine ⟨.number y, .number hy, ?_⟩
    unfold term? termText
    dsimp only
    rw [bracketed?_of_head? hhead]
    dsimp only
    rw [hread]

theorem termText_eq_cons (t : Term) : ∃ c cs, termText t = c :: cs ∧ isBlank c = false := by
  cases t with
  | ref name => exact ⟨'[', _, rfl, by decide⟩
  | number x =>
    have hw := written_numberText x
    obtain ⟨c, cs, heq, -⟩ := hw.exists_cons
    exact ⟨c, cs, heq, (hw.isTight c (by rw [heq]; exact List.mem_cons_self)).2⟩

theorem getLast?_termText (t : Term) : ∀ c ∈ (termText t).getLast?, isBlank c = false := by
  cases t with
  | ref name =>
    intro c hc
    have hlast : (('[' :: name.toList) ++ [']']).getLast? = some ']' := List.getLast?_concat
    have htext : termText (.ref name) = ('[' :: name.toList) ++ [']'] := rfl
    rw [htext] at hc
    rw [hlast] at hc
    obtain rfl := Option.some.inj hc
    decide
  | number x =>
    exact fun c hc => ((written_numberText x).isTight c (List.mem_of_getLast? hc)).2

theorem newline_notMem_termText {t : Term} (ht : t.IsReadable) : '\n' ∉ termText t := by
  intro hmem
  cases t with
  | ref name =>
    unfold termText at hmem
    simp only [List.mem_cons, List.mem_append, List.not_mem_nil, or_false] at hmem
    rcases hmem with h | h | h
    · contradiction
    · exact ht.2 h
    · contradiction
  | number x =>
    have h := ((written_numberText x).isTight _ hmem).2
    contradiction

theorem operation?_termText (op : Op) (t : Term) : operation? (op.symbol :: termText t) =
    if '\n' ∈ termText t then none else some (op, termText t) := by
  obtain ⟨c, cs, heq, hc⟩ := termText_eq_cons t
  have hop : Op.ofSymbol? op.symbol = some op := by cases op <;> rfl
  unfold operation?
  simp only [hop, Option.bind_eq_bind, Option.bind_some, heq, skipBlanks_cons hc]
  simp

theorem chain?_termText (left : Option String) (op : Op) {t : Term} (ht : t.IsReadable) :
    ∃ u, t.Agrees Eq Alike u ∧
      chain? rule left (op.symbol :: termText t) = some (.ok (chain left op u)) := by
  obtain ⟨u, hu, hterm⟩ := term?_termText ht
  refine ⟨u, hu, ?_⟩
  unfold chain?
  rw [operation?_termText, if_neg (newline_notMem_termText ht), Option.map_some]
  dsimp only
  rw [hterm]

/-- An operand that is read was on one line, and if it stood in brackets there was something. -/
theorem isReadable_of_chain? {left : Option String} {op : Op} {t : Term} {s : Step}
    (href : ∀ name, t = .ref name → IsParsedRef name)
    (hnumber : ∀ x, (chain left op t).operand? = some x → x.isFinite = true)
    (h : chain? rule left (op.symbol :: termText t) = some (.ok s)) : t.IsReadable := by
  obtain ⟨⟨op', operand⟩, hop, h⟩ := Option.map_eq_some_iff.1 h
  rw [operation?_termText] at hop
  split at hop
  · contradiction
  rename_i hline
  obtain ⟨rfl, rfl⟩ := Prod.mk.inj (Option.some.inj hop)
  cases t with
  | number x => exact hnumber x rfl
  | ref name =>
    refine ⟨isCleanRef_iff.2 ⟨?_, href name rfl⟩, fun hmem => hline ?_⟩
    · rintro rfl
      have hterm : term? (termText (.ref "")) = none := by decide
      dsimp only at h
      rw [hterm] at h
      contradiction
    · simp [termText, hmem]

theorem simple?_reuse (href : IsCleanRef ref) :
    simple? rule ('[' :: (ref.toList ++ [']'])) = some (.ok (reuse ref)) := by
  unfold simple?
  rw [bracketed?_complete href]

theorem simple?_start (href : IsCleanRef ref) (op : Op) (t : Term) :
    simple? rule ('[' :: (ref.toList ++ ']' :: op.symbol :: termText t)) =
      chain? rule (some ref) (op.symbol :: termText t) := by
  have hskip : skipBlanks (op.symbol :: termText t) = op.symbol :: termText t :=
    skipBlanks_cons (by cases op <;> decide) _
  unfold simple?
  rw [bracketed?_complete href]
  dsimp only
  rw [hskip]

theorem simple?_continue (op : Op) (t : Term) :
    simple? rule (op.symbol :: termText t) = chain? rule none (op.symbol :: termText t) := by
  have hop : op.symbol ≠ '[' := by cases op <;> decide
  have hhead : (op.symbol :: termText t).head? ≠ some '[' := fun heq => hop (Option.some.inj heq)
  unfold simple?
  rw [bracketed?_of_head? hhead]

theorem maxWord_eq : maxWord = 'M' :: "AX(result".toList := by decide

theorem ifWord_eq : ifWord = 'I' :: "F(".toList := by decide

theorem toList_toText_atLeast (x : Float) :
    (atLeast x).toText.toList = maxWord ++ ',' :: ((numberText x).toList ++ [')']) := by
  have htext : (atLeast x).toText = "MAX(result," ++ numberText x ++ ")" := rfl
  have hopen : "MAX(result,".toList = maxWord ++ [','] := by decide
  have hclose : ")".toList = [')'] := by decide
  rw [htext, String.toList_append, String.toList_append, hopen, hclose, List.append_assoc,
    List.append_assoc]
  rfl

theorem toList_toText_reuse (ref : String) :
    (reuse ref).toText.toList = '[' :: (ref.toList ++ [']']) := by
  have htext : (reuse ref).toText = "[" ++ ref ++ "]" := rfl
  rw [htext]
  simp [String.toList_append]

theorem toList_toText_choose (ref : String) (comparison : Comparison) (x y z : Float) :
    (choose ref comparison x y z).toText.toList = ifWord ++ choiceText ref comparison x y z := by
  have htext : (choose ref comparison x y z).toText = "IF([" ++ ref ++ "] " ++
      comparison.symbol.toString ++ " " ++ numberText x ++ ", " ++ numberText y ++ ", " ++
      numberText z ++ ")" := rfl
  rw [htext]
  simp [choiceText, ifWord, String.toList_append]

theorem toList_toText_start (ref : String) (op : Op) (t : Term) :
    (chain (some ref) op t).toText.toList =
      '[' :: (ref.toList ++ ']' :: op.symbol :: termText t) := by
  cases t with
  | ref name =>
    have htext : (chain (some ref) op (.ref name)).toText =
        "[" ++ ref ++ "]" ++ op.symbol.toString ++ ("[" ++ name ++ "]") := rfl
    rw [htext]
    simp [termText, String.toList_append]
  | number x =>
    have htext : (chain (some ref) op (.number x)).toText =
        "[" ++ ref ++ "]" ++ op.symbol.toString ++ numberText x := rfl
    rw [htext]
    simp [termText, String.toList_append]

theorem toList_toText_continue (op : Op) (t : Term) :
    (chain none op t).toText.toList = op.symbol :: termText t := by
  cases t with
  | ref name =>
    have htext : (chain none op (.ref name)).toText =
        "" ++ op.symbol.toString ++ ("[" ++ name ++ "]") := rfl
    rw [htext]
    simp [termText, String.toList_append]
  | number x =>
    have htext : (chain none op (.number x)).toText =
        "" ++ op.symbol.toString ++ numberText x := rfl
    rw [htext]
    simp [termText, String.toList_append]

theorem ofText_of_ends {s : String} (hs : s.toList = c :: cs) (hc : isBlank c = false)
    (hl : ∀ d ∈ (c :: cs).getLast?, isBlank d = false) : ofText s = ofTrimmed s.toList := by
  have htidy : Tidy isBlank s.toList := by
    rw [hs]
    refine ⟨fun d hd => ?_, hl⟩
    obtain rfl := Option.some.inj hd
    exact hc
  have hne : s.toList.isEmpty = false := by rw [hs]; rfl
  unfold ofText trimChars
  rw [trimBy_of_tidy htidy]
  simp only [hne, Bool.false_eq_true, if_false]

theorem ofText_toText (s : Step) : ofText s.toText = ofTrimmed s.toText.toList := by
  cases s with
  | roundUp => rfl
  | atLeast x =>
    have h := toList_toText_atLeast x
    rw [maxWord_eq, List.cons_append] at h
    refine ofText_of_ends h (by decide) fun d hd => ?_
    simp [List.getLast?_append, List.getLast?_cons] at hd
    subst hd
    decide
  | choose ref comparison x y z =>
    have h := toList_toText_choose ref comparison x y z
    rw [ifWord_eq, List.cons_append] at h
    refine ofText_of_ends h (by decide) fun d hd => ?_
    simp [choiceText, List.getLast?_append, List.getLast?_cons] at hd
    subst hd
    decide
  | reuse ref =>
    refine ofText_of_ends (toList_toText_reuse ref) (by decide) fun d hd => ?_
    simp [List.getLast?_append, List.getLast?_cons] at hd
    subst hd
    decide
  | chain left op t =>
    obtain ⟨e, es, ht, he⟩ := termText_eq_cons t
    have hlast := getLast?_termText t
    cases left with
    | none =>
      refine ofText_of_ends (toList_toText_continue op t) (by cases op <;> decide) fun d hd => ?_
      rw [ht] at hlast hd
      exact hlast d (by simpa [List.getLast?_cons] using hd)
    | some ref =>
      refine ofText_of_ends (toList_toText_start ref op t) (by decide) fun d hd => ?_
      rw [ht] at hlast hd
      exact hlast d (by simpa [List.getLast?_append, List.getLast?_cons] using hd)

theorem op_ne_letter (op : Op) : op.symbol ≠ 'R' ∧ op.symbol ≠ 'M' ∧ op.symbol ≠ 'I' := by
  cases op <;> decide

/-- A readable step is read back, up to the signs of zeros. -/
theorem IsReadable.ofText {s : Step} (hs : s.IsReadable) :
    ∃ t, s.Agrees Eq Alike t ∧ Step.ofText s.toText = .ok t := by
  rw [ofText_toText]
  cases s with
  | roundUp => exact ⟨.roundUp, .roundUp, rfl⟩
  | atLeast x =>
    obtain ⟨y, hy, hread⟩ := threshold?_numberText hs
    refine ⟨.atLeast y, .atLeast hy, ?_⟩
    rw [toList_toText_atLeast]
    exact (ofTrimmed_max _).2 ⟨y, hread, rfl⟩
  | choose ref comparison x y z =>
    obtain ⟨href, hx, hy, hz⟩ := hs
    obtain ⟨x', y', z', hx', hy', hz', hread⟩ := choice?_choiceText comparison href hx hy hz
    refine ⟨_, .choose rfl comparison hx' hy' hz', ?_⟩
    rw [toList_toText_choose]
    exact (ofTrimmed_if _).2 hread
  | reuse ref =>
    refine ⟨.reuse ref, .reuse rfl, ?_⟩
    rw [toList_toText_reuse]
    exact (ofTrimmed_simple (by decide) _).2 (simple?_reuse hs)
  | chain left op t =>
    obtain ⟨hleft, ht⟩ := hs
    cases left with
    | none =>
      obtain ⟨u, hu, hread⟩ := chain?_termText none op ht
      refine ⟨_, .chain .none op hu, ?_⟩
      rw [toList_toText_continue]
      exact (ofTrimmed_simple (op_ne_letter op) _).2 ((simple?_continue op t).trans hread)
    | some ref =>
      obtain ⟨u, hu, hread⟩ := chain?_termText (some ref) op ht
      refine ⟨_, .chain (.some rfl) op hu, ?_⟩
      rw [toList_toText_start]
      exact (ofTrimmed_simple (by decide) _).2 ((simple?_start (hleft ref rfl) op t).trans hread)

/-- Only a readable step is read at all, where its references can be read and its operand is a
finite number, if it is a number. -/
theorem isReadable_of_ofText {s t : Step} (hrefs : ∀ ref ∈ s.references, IsParsedRef ref)
    (hnumber : ∀ x, s.operand? = some x → x.isFinite = true) (h : ofText s.toText = .ok t) :
    s.IsReadable := by
  rw [ofText_toText] at h
  cases s with
  | roundUp => trivial
  | atLeast x =>
    rw [toList_toText_atLeast] at h
    obtain ⟨y, hread, -⟩ := (ofTrimmed_max _).1 h
    exact isPlain_of_threshold? hread
  | choose ref comparison x y z =>
    rw [toList_toText_choose] at h
    exact isReadable_of_choice? (hrefs ref (by simp [references])) ((ofTrimmed_if _).1 h)
  | reuse ref =>
    refine isCleanRef_iff.2 ⟨?_, hrefs ref (by simp [references])⟩
    rintro rfl
    rw [toList_toText_reuse] at h
    have hread := (ofTrimmed_simple (by decide) _).1 h
    contradiction
  | chain left op u =>
    have hterm : ∀ name, u = .ref name → IsParsedRef name := fun name hu =>
      hrefs name (by simp [references, hu, Term.ref?])
    cases left with
    | none =>
      rw [toList_toText_continue] at h
      have hread := (ofTrimmed_simple (op_ne_letter op) _).1 h
      rw [simple?_continue] at hread
      exact ⟨by simp, isReadable_of_chain? hterm hnumber hread⟩
    | some ref =>
      rw [toList_toText_start] at h
      have hread := (ofTrimmed_simple (by decide) _).1 h
      have hclean : IsCleanRef ref := by
        refine isCleanRef_iff.2 ⟨?_, hrefs ref (by simp [references])⟩
        rintro rfl
        contradiction
      rw [simple?_start hclean] at hread
      refine ⟨fun name hname => ?_, isReadable_of_chain? hterm hnumber hread⟩
      obtain rfl := Option.some.inj hname
      exact hclean

end Step
end FormulaGraph
