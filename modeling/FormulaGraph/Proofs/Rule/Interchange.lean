import FormulaGraph.Proofs.Evaluation.Pairing
import FormulaGraph.Proofs.Rule.FullForms
import FormulaGraph.Proofs.Rule.Grammar

/-! Rules that differ in what stands between brackets. Where the identifiers there have the same full
forms, both rules are read, as steps that differ in the spelling of identifiers only, or neither is;
so some references can be replaced by their full forms in any text. -/
namespace FormulaGraph

open Text

variable {ns : Namespaces} {name name' cs cs' rest text text' front core trail : List Char}

/-- What stands between brackets in one text and in the other: nothing in neither, or identifiers with
one full form, on one line in both or in neither. -/
structure Interchanges (ns : Namespaces) (name name' : List Char) : Prop where
  unbracketed : ∀ c ∈ name, c ≠ '[' ∧ c ≠ ']'
  unbracketed' : ∀ c ∈ name', c ≠ '[' ∧ c ≠ ']'
  nil_iff : name = [] ↔ name' = []
  line_iff : '\n' ∈ name ↔ '\n' ∈ name'
  sameFull : ns.SameFull (String.ofList (trimChars name)) (String.ofList (trimChars name'))

/-- Texts that are alike but for what stands between brackets. -/
inductive Interchanged (ns : Namespaces) : List Char → List Char → Prop where
  | nil : Interchanged ns [] []
  | char (c : Char) {cs cs' : List Char} (h : Interchanged ns cs cs') :
    Interchanged ns (c :: cs) (c :: cs')
  | name {name name' cs cs' : List Char} (hname : Interchanges ns name name')
    (h : Interchanged ns cs cs') :
    Interchanged ns ('[' :: (name ++ ']' :: cs)) ('[' :: (name' ++ ']' :: cs'))

theorem Interchanges.refl (h : ∀ c ∈ name, c ≠ '[' ∧ c ≠ ']') : Interchanges ns name name :=
  ⟨h, h, Iff.rfl, Iff.rfl, ns.sameFull_refl _⟩

theorem Interchanges.symm (h : Interchanges ns name name') : Interchanges ns name' name :=
  ⟨h.unbracketed', h.unbracketed, h.nil_iff.symm, h.line_iff.symm, h.sameFull.symm⟩

namespace Interchanged

theorem symm (h : Interchanged ns text text') : Interchanged ns text' text := by
  induction h with
  | nil => exact .nil
  | char c _ ih => exact .char c ih
  | name hname _ ih => exact .name hname.symm ih

/-- Up to the first bracket the texts are alike. -/
theorem of_append (h : Interchanged ns (front ++ cs) text') (hfront : '[' ∉ front) :
    ∃ cs', text' = front ++ cs' ∧ Interchanged ns cs cs' := by
  induction front generalizing text' with
  | nil => exact ⟨text', rfl, h⟩
  | cons c front ih =>
    obtain ⟨hc, hrest⟩ := not_or.1 (mt List.mem_cons.2 hfront)
    generalize htext : c :: front ++ cs = text at h
    cases h with
    | nil => contradiction
    | char d h =>
      obtain ⟨rfl, rfl⟩ := List.cons.inj htext
      obtain ⟨cs', rfl, hcs⟩ := ih h hrest
      exact ⟨cs', rfl, hcs⟩
    | name _ _ => exact absurd (List.cons.inj htext).1.symm hc

theorem eq_of_notMem (h : Interchanged ns cs cs') (hcs : '[' ∉ cs) : cs' = cs := by
  rw [← List.append_nil cs] at h
  obtain ⟨tail, rfl, hnil⟩ := h.of_append hcs
  cases hnil
  exact List.append_nil cs

theorem of_cons {c : Char} (h : Interchanged ns (c :: cs) text') (hc : c ≠ '[') :
    ∃ cs', text' = c :: cs' ∧ Interchanged ns cs cs' := by
  have happend : Interchanged ns ([c] ++ cs) text' := h
  exact happend.of_append (by simpa using hc.symm)

theorem closing_inj {a b xs ys : List Char} (ha : ']' ∉ a) (hb : ']' ∉ b)
    (h : a ++ ']' :: xs = b ++ ']' :: ys) : a = b ∧ xs = ys := by
  rcases List.append_eq_append_iff.1 h with ⟨mid, rfl, hmid⟩ | ⟨mid, rfl, hmid⟩
  · cases mid with
    | nil => exact ⟨(List.append_nil a).symm, (List.cons.inj hmid).2⟩
    | cons c mid =>
      obtain rfl := (List.cons.inj hmid).1
      exact absurd (List.mem_append_right a List.mem_cons_self) hb
  · cases mid with
    | nil => exact ⟨List.append_nil b, (List.cons.inj hmid).2.symm⟩
    | cons c mid =>
      obtain rfl := (List.cons.inj hmid).1
      exact absurd (List.mem_append_right b List.mem_cons_self) ha

/-- To what stands between brackets corresponds what may stand there instead. -/
theorem of_name (h : Interchanged ns ('[' :: (name ++ ']' :: rest)) text')
    (hname : ∀ c ∈ name, c ≠ '[' ∧ c ≠ ']') : ∃ name' rest',
      text' = '[' :: (name' ++ ']' :: rest') ∧ Interchanges ns name name' ∧
        Interchanged ns rest rest' := by
  generalize htext : '[' :: (name ++ ']' :: rest) = text at h
  cases h with
  | nil => contradiction
  | char c h =>
    obtain ⟨rfl, rfl⟩ := List.cons.inj htext
    obtain ⟨tail, rfl, htail⟩ := h.of_append fun hmem => (hname _ hmem).1 rfl
    obtain ⟨rest', rfl, hrest⟩ := htail.of_cons (by decide)
    exact ⟨name, rest', rfl, .refl hname, hrest⟩
  | @name other name' cs cs' hother h =>
    obtain ⟨rfl, rfl⟩ := closing_inj (fun hmem => (hname _ hmem).2 rfl)
      (fun hmem => (hother.unbracketed _ hmem).2 rfl) (List.cons.inj htext).2
    exact ⟨name', cs', rfl, hother, h⟩

theorem of_append_right (h : Interchanged ns text text') (htext : text = core ++ trail)
    (htrail : '[' ∉ trail ∧ ']' ∉ trail) :
    ∃ core', text' = core' ++ trail ∧ Interchanged ns core core' := by
  induction h generalizing core with
  | nil =>
    obtain ⟨rfl, rfl⟩ := List.append_eq_nil_iff.1 htext.symm
    exact ⟨[], rfl, .nil⟩
  | @char c cs cs' h ih =>
    cases core with
    | nil =>
      rw [List.nil_append] at htext
      subst htext
      obtain rfl := h.eq_of_notMem fun hmem => htrail.1 (List.mem_cons_of_mem _ hmem)
      exact ⟨[], rfl, .nil⟩
    | cons d core =>
      obtain ⟨rfl, hrest⟩ := List.cons.inj htext
      obtain ⟨core', rfl, hcore⟩ := ih hrest
      exact ⟨c :: core', rfl, .char c hcore⟩
  | @name name name' cs cs' hname h ih =>
    cases core with
    | nil =>
      rw [List.nil_append] at htext
      exact absurd (htext ▸ List.mem_cons_self) htrail.1
    | cons d core =>
      obtain ⟨rfl, hrest⟩ := List.cons.inj htext
      rcases List.append_eq_append_iff.1 hrest with ⟨mid, rfl, hmid⟩ | ⟨mid, rfl, hmid⟩
      · cases mid with
        | nil =>
          rw [List.nil_append] at hmid
          exact absurd (hmid ▸ List.mem_cons_self) htrail.2
        | cons e mid =>
          obtain ⟨rfl, htail⟩ := List.cons.inj hmid
          obtain ⟨core', rfl, hcore⟩ := ih htail
          exact ⟨'[' :: (name' ++ ']' :: core'), by simp, .name hname hcore⟩
      · exact absurd (hmid ▸ List.mem_append_right mid List.mem_cons_self) htrail.2

theorem head?_eq (h : Interchanged ns cs cs') : cs'.head? = cs.head? := by
  cases h <;> rfl

theorem getLast?_eq (h : Interchanged ns cs cs') : cs'.getLast? = cs.getLast? := by
  induction h with
  | nil => rfl
  | char c _ ih => rw [List.getLast?_cons, List.getLast?_cons, ih]
  | name _ _ ih => simp [List.getLast?_cons, List.getLast?_append, ih]

end Interchanged

theorem Text.IsBlanks.notMem (h : IsBlanks cs) {c : Char} (hc : isBlank c = false) : c ∉ cs :=
  fun hmem => by rw [h c hmem] at hc; contradiction

theorem Double.notMem_of_number? {x : Float} (h : number? cs = some x) : '[' ∉ cs := by
  intro hmem
  have hchar := isNumberChar_of_number? h _ (mem_trimBy hmem (by decide))
  rcases hchar with hc | hc | hc
  all_goals exact absurd hc (by decide)

theorem IsArgument.notMem {x : Float} (h : IsArgument cs x) : '[' ∉ cs := by
  cases h with
  | mk hb _ value ha =>
    simp [hb.notMem (c := '[') (by decide), ha.notMem (c := '[') (by decide),
      Double.notMem_of_number? value]

theorem IsName.interchanges {ref : String} (h : IsName name ref) (hname : Interchanges ns name name') :
    ∃ ref', IsName name' ref' ∧ ns.SameFull ref ref' := by
  refine ⟨_, ⟨fun hnil => h.nonempty (hname.nil_iff.2 hnil), hname.unbracketed', rfl⟩, ?_⟩
  rw [h.trimmed]
  exact hname.sameFull

theorem Term.Derives.interchanged {t : Term} (h : Term.Derives cs t) (hcs : Interchanged ns cs cs') :
    ∃ t', Term.Derives cs' t' ∧ t.Agrees ns.SameFull Eq t' := by
  cases h with
  | bracketed h line =>
    obtain ⟨name', rest', rfl, hname, hrest⟩ := hcs.of_name h.unbracketed
    cases hrest
    obtain ⟨ref', href, hfull⟩ := h.interchanges hname
    exact ⟨.ref ref', .bracketed href fun hmem => line (hname.line_iff.2 hmem), .ref hfull⟩
  | number h =>
    have hnumber := (Option.filter_eq_some_iff.1 h).1
    obtain rfl := hcs.eq_of_notMem (Double.notMem_of_number? hnumber)
    exact ⟨_, .number h, .number rfl⟩
  | identifier ne hchar other =>
    obtain rfl := hcs.eq_of_notMem fun hmem => (hchar _ hmem).2 (by decide)
    exact ⟨_, .identifier ne hchar other, .ref (ns.sameFull_refl _)⟩

namespace Step

variable {s : Step}

theorem IsChoice.interchanged (h : IsChoice cs s) (hcs : Interchanged ns cs cs') :
    ∃ s', IsChoice cs' s' ∧ s.Agrees ns.SameFull Eq s' := by
  cases h with
  | @mk ws name ws' a b c ref x y z hw href hw' comparison ha hb hc =>
    obtain ⟨front, rfl, hopen⟩ := hcs.of_append (hw.notMem (by decide))
    obtain ⟨name', rest', rfl, hname, hrest⟩ := hopen.of_name href.unbracketed
    obtain ⟨ref', href', hfull⟩ := href.interchanges hname
    have hsymbol : '[' ≠ comparison.symbol := by cases comparison <;> decide
    obtain rfl := hrest.eq_of_notMem (by
      simp [hw'.notMem (c := '[') (by decide), hsymbol, ha.notMem, hb.notMem, hc.notMem])
    exact ⟨_, .mk hw href' hw' comparison ha hb hc, .choose hfull comparison rfl rfl rfl⟩

/-- A derivation goes through for the other text. -/
theorem Derives.interchanged (h : Derives cs s) (hcs : Interchanged ns cs cs') :
    ∃ s', Derives cs' s' ∧ s.Agrees ns.SameFull Eq s' := by
  have hop : ∀ op : Op, '[' ≠ op.symbol := fun op => by cases op <;> decide
  cases h with
  | roundUp =>
    obtain rfl := hcs.eq_of_notMem (by decide)
    exact ⟨_, .roundUp, .roundUp⟩
  | atLeast hw ha =>
    obtain rfl := hcs.eq_of_notMem (by
      simp [hw.notMem (c := '[') (by decide), ha.notMem])
    exact ⟨_, .atLeast hw ha, .atLeast rfl⟩
  | choose h =>
    obtain ⟨rest, rfl, hrest⟩ := hcs.of_append (by decide)
    obtain ⟨s', h', hagree⟩ := h.interchanged hrest
    exact ⟨s', .choose h', hagree⟩
  | reuse href =>
    obtain ⟨name', rest', rfl, hname, hrest⟩ := hcs.of_name href.unbracketed
    cases hrest
    obtain ⟨ref', href', hfull⟩ := href.interchanges hname
    exact ⟨_, .reuse href', .reuse hfull⟩
  | start href hw op hw' hright =>
    obtain ⟨name', rest', rfl, hname, hrest⟩ := hcs.of_name href.unbracketed
    obtain ⟨ref', href', hfull⟩ := href.interchanges hname
    obtain ⟨tail, rfl, htail⟩ := hrest.of_append (hw.notMem (by decide))
    obtain ⟨back, rfl, hback⟩ := htail.of_cons (hop op).symm
    obtain ⟨operand, rfl, hoperand⟩ := hback.of_append (hw'.notMem (by decide))
    obtain ⟨t', hright', hterm⟩ := hright.interchanged hoperand
    exact ⟨_, .start href' hw op hw' hright', .chain (.some hfull) op hterm⟩
  | resume op hw hright =>
    obtain ⟨back, rfl, hback⟩ := hcs.of_cons (hop op).symm
    obtain ⟨operand, rfl, hoperand⟩ := hback.of_append (hw.notMem (by decide))
    obtain ⟨t', hright', hterm⟩ := hright.interchanged hoperand
    exact ⟨_, .resume op hw hright', .chain .none op hterm⟩

theorem derives_of_ofText {rule : String} (h : ofText rule = .ok s) :
    Derives (trimChars rule.toList) s := by
  unfold ofText at h
  dsimp only at h
  split at h
  · contradiction
  · exact derives_of_ofTrimmed h

theorem ofText_of_trimmed {rule : String} (h : Derives (trimChars rule.toList) s) :
    ofText rule = .ok s := by
  have hread := ofText_of_derives h
  unfold ofText at hread ⊢
  rwa [String.toList_ofList, trimChars_trimChars] at hread

theorem interchanged_trimChars (h : Interchanged ns cs cs') :
    Interchanged ns (trimChars cs) (trimChars cs') := by
  obtain ⟨lead, trail, hl, ht, hcs⟩ := exists_trimBy isBlank cs
  have hlead : IsBlanks lead := hl
  have htrail : IsBlanks trail := ht
  rw [hcs] at h
  obtain ⟨back, rfl, hback⟩ := h.of_append (hlead.notMem (by decide))
  have hbracket : '[' ∉ trail ∧ ']' ∉ trail :=
    ⟨htrail.notMem (by decide), htrail.notMem (by decide)⟩
  obtain ⟨core, rfl, hcore⟩ := hback.of_append_right rfl hbracket
  have htidy : Tidy isBlank core := by
    obtain ⟨hhead, hlast⟩ := tidy_trimBy isBlank cs
    exact ⟨by rwa [hcore.head?_eq], by rwa [hcore.getLast?_eq]⟩
  have htrim : trimChars (lead ++ (core ++ trail)) = core := trimBy_append hl ht htidy
  rw [htrim]
  exact hcore

end Step

namespace Rule

variable {rule rule' : String}

theorem ofText_of_interchanged {s : Step} (h : Interchanged ns rule.toList rule'.toList)
    (hs : Step.ofText rule = .ok s) :
    ∃ t, Step.ofText rule' = .ok t ∧ s.Agrees ns.SameFull Eq t := by
  obtain ⟨t, ht, hagree⟩ :=
    (Step.derives_of_ofText hs).interchanged (Step.interchanged_trimChars h)
  exact ⟨t, Step.ofText_of_trimmed ht, hagree⟩

/-- Rules that are alike but for what stands between brackets are read alike. -/
theorem readsAlike_of_interchanged (h : Interchanged ns rule.toList rule'.toList) :
    ReadsAlike ns (.text rule) (.text rule') := by
  unfold ReadsAlike Step.ofRule
  dsimp only
  cases hs : Step.ofText rule with
  | ok s =>
    obtain ⟨t, ht, hagree⟩ := ofText_of_interchanged h hs
    rw [ht]
    exact hagree
  | error e => cases ht : Step.ofText rule' with
    | ok t =>
      obtain ⟨s, hs', -⟩ := ofText_of_interchanged h.symm ht
      rw [hs] at hs'
      contradiction
    | error e' => trivial

/-- Some of the references in brackets are replaced by their full forms. -/
inductive ExpandsText (ns : Namespaces) : List Char → List Char → Prop where
  | nil : ExpandsText ns [] []
  | char (c : Char) {cs cs' : List Char} (h : ExpandsText ns cs cs') :
    ExpandsText ns (c :: cs) (c :: cs')
  | reference {lead trail cs cs' : List Char} {ref : String} (hl : IsBlanks lead)
    (ht : IsBlanks trail) (href : IsParsedRef ref) (h : ExpandsText ns cs cs') :
    ExpandsText ns ('[' :: (lead ++ (ref.toList ++ trail) ++ ']' :: cs))
      ('[' :: (lead ++ ((ns.extend ref).toList ++ trail) ++ ']' :: cs'))

theorem ExpandsText.refl (cs : List Char) : ExpandsText ns cs cs := by
  induction cs with
  | nil => exact .nil
  | cons c _ ih => exact .char c ih

/-- A text rule with some of its references in brackets in full form, or the same rule. -/
inductive Expands (ns : Namespaces) : Value → Value → Prop where
  | same (rule : Value) : Expands ns rule rule
  | text {rule rule' : String} (h : ExpandsText ns rule.toList rule'.toList) :
    Expands ns (.text rule) (.text rule')

variable (hidem : ∀ x, ns.extend (ns.extend x) = ns.extend x) (htight : ns.IsTight)
include hidem htight

/-- A reference may be in full form, whatever blanks are around it. -/
theorem interchanges_extend {lead : List Char} {ref : String} (hl : IsBlanks lead)
    (ht : IsBlanks trail) (href : IsParsedRef ref) :
    Interchanges ns (lead ++ (ref.toList ++ trail)) (lead ++ ((ns.extend ref).toList ++ trail)) := by
  have hfull := htight.isParsedRef_extend href
  have hunbracketed : ∀ {x : String}, IsParsedRef x →
      ∀ c ∈ lead ++ (x.toList ++ trail), c ≠ '[' ∧ c ≠ ']' := by
    intro x hx c hc
    rcases List.mem_append.1 hc with hc | hc
    · exact ⟨by rintro rfl; exact hl.notMem (by decide) hc, by rintro rfl; exact hl.notMem (by decide) hc⟩
    rcases List.mem_append.1 hc with hc | hc
    · exact Step.isBracket_eq_false_iff.1 (hx.unbracketed c hc)
    · exact ⟨by rintro rfl; exact ht.notMem (by decide) hc, by rintro rfl; exact ht.notMem (by decide) hc⟩
  have htrim : ∀ {x : String}, IsParsedRef x →
      String.ofList (trimChars (lead ++ (x.toList ++ trail))) = x := by
    intro x hx
    have htidy : Tidy isBlank x.toList := by
      rw [← hx.trimmed, trim, String.toList_ofList]
      exact tidy_trimBy _ _
    rw [trimChars, trimBy_append hl ht htidy, String.ofList_toList]
  refine ⟨hunbracketed href, hunbracketed hfull, ?_, ?_, ?_⟩
  · have hnil : ref.toList = [] ↔ (ns.extend ref).toList = [] := by
      rw [String.toList_eq_nil_iff, String.toList_eq_nil_iff]
      refine ⟨?_, Namespaces.eq_empty_of_extend hidem⟩
      rintro rfl
      rfl
    simp [hnil]
  · simp [htight.newline_mem_iff href.trimmed]
  · rw [htrim href, htrim hfull]
    exact (hidem ref).symm

theorem ExpandsText.interchanged (h : ExpandsText ns text text') : Interchanged ns text text' := by
  induction h with
  | nil => exact .nil
  | char c _ ih => exact .char c ih
  | reference hl ht href _ ih => exact .name (interchanges_extend hidem htight hl ht href) ih

theorem Expands.readsAlike {rule rule' : Value} (h : Expands ns rule rule') :
    ReadsAlike ns rule rule' := by
  cases h with
  | same => exact readsAlike_refl ns rule
  | text h => exact readsAlike_of_interchanged (h.interchanged hidem htight)

end Rule
end FormulaGraph
