import FormulaGraph.Proofs.Evaluation.Following
import FormulaGraph.Proofs.Evaluation.Growth
import FormulaGraph.Proofs.Namespaces

/-! Normal forms of rules. A rule keeps its step just if the step is readable with its identifiers
in full form, and where all rules keep their steps an order keeps its value. -/
namespace FormulaGraph

open Double

theorem exists_ok_iff {ε α : Type} {x : Except ε α} :
    (∃ a, x = .ok a) ↔ x.toOption.isSome = true := by
  cases x <;> simp [Except.toOption]

namespace Step

variable {x : Float} {s t : Step}

theorem isFinite_of_isPlain (h : IsPlain x) : x.isFinite = true := by
  obtain ⟨r, hr, -⟩ := h
  obtain ⟨p, hp, -⟩ := parts?_of_toRat? hr
  exact isFinite_iff.2 ⟨p, hp⟩

/-- Where a step is read back up to the signs of zeros, its numbers are read back as equal ones. -/
theorem Agrees.beq (h : s.Agrees Eq Alike t) (hs : s.IsReadable) : s.Agrees Eq (· == ·) t := by
  cases h with
  | roundUp => exact .roundUp
  | atLeast hx => exact .atLeast (hx.beq (isFinite_of_isPlain hs))
  | choose href comparison hx hy hz =>
    exact .choose href comparison (hx.beq (isFinite_of_isPlain hs.2.1))
      (hy.beq (isFinite_of_isPlain hs.2.2.1)) (hz.beq (isFinite_of_isPlain hs.2.2.2))
  | reuse href => exact .reuse href
  | chain hleft op hright =>
    refine .chain hleft op ?_
    cases hright with
    | number hx => exact .number (hx.beq hs.2)
    | ref hname => exact .ref hname

theorem Agrees.references_eq {R : Float → Float → Prop} (h : s.Agrees Eq R t) :
    s.references = t.references := by
  cases h with
  | roundUp => rfl
  | atLeast _ => rfl
  | choose href _ _ _ _ => exact congrArg ([·]) href
  | reuse href => exact congrArg ([·]) href
  | chain hleft op hright =>
    obtain rfl := eq_of_rel hleft
    cases hright with
    | number _ => rfl
    | ref hname => rw [hname]

theorem IsParsed.isParsedRef (h : s.IsParsed) : ∀ ref ∈ s.references, IsParsedRef ref := by
  intro ref href
  cases s with
  | roundUp => simp [references] at href
  | atLeast x => simp [references] at href
  | choose name comparison x y z =>
    obtain rfl : ref = name := by simpa [references] using href
    exact h
  | reuse name =>
    obtain rfl : ref = name := by simpa [references] using href
    exact h
  | chain left op right =>
    rcases List.mem_append.1 href with href | href
    · exact h.1 ref (Option.mem_toList.1 href)
    · cases right with
      | number x => simp [Term.ref?] at href
      | ref name =>
        obtain rfl : ref = name := by simpa [Term.ref?, eq_comm] using href
        exact h.2.1

theorem IsParsed.isFinite (h : s.IsParsed) (hx : s.operand? = some x) : x.isFinite = true := by
  cases s with
  | chain left op right => cases right with
    | number y =>
      obtain rfl := Option.some.inj hx
      exact h.2
    | ref name => contradiction
  | _ => contradiction

theorem references_mapRefs (f : String → String) (s : Step) :
    (s.mapRefs f).references = s.references.map f := by
  cases s with
  | chain left op right => cases left <;> cases right <;> rfl
  | _ => rfl

theorem operand?_mapRefs (f : String → String) (s : Step) :
    (s.mapRefs f).operand? = s.operand? := by
  cases s with
  | chain left op right => cases right <;> rfl
  | _ => rfl

/-- Where references stay clean on one line, a step of the parser is readable just if its constants
are plain. -/
theorem isReadable_mapRefs_iff {f : String → String} (hs : s.IsParsed)
    (hf : ∀ ref, IsCleanRef ref → IsCleanRef (f ref))
    (hrefs : ∀ ref ∈ s.references, ref ≠ "" ∧ '\n' ∉ (f ref).toList) :
    (s.mapRefs f).IsReadable ↔ ∀ x ∈ s.constants, IsPlain x := by
  have hclean : ∀ ref ∈ s.references, IsCleanRef (f ref) := fun ref href =>
    hf ref (isCleanRef_iff.2 ⟨(hrefs ref href).1, hs.isParsedRef ref href⟩)
  cases s with
  | roundUp => simp [mapRefs, IsReadable, constants]
  | atLeast x => simp [mapRefs, IsReadable, constants]
  | choose ref comparison x y z =>
    have href := hclean ref (by simp [references])
    simp [mapRefs, IsReadable, constants, href]
  | reuse ref =>
    have href := hclean ref (by simp [references])
    simp [mapRefs, IsReadable, constants, href]
  | chain left op right =>
    have hleft : ∀ ref, left = some ref → IsCleanRef (f ref) := fun ref hl =>
      hclean ref (by simp [references, hl])
    have hright : (right.mapRef f).IsReadable := by
      cases right with
      | number x => exact hs.2
      | ref name =>
        have hname : name ∈ (chain left op (.ref name)).references := by
          simp [references, Term.ref?]
        exact ⟨hclean name hname, (hrefs name hname).2⟩
    simp only [mapRefs, IsReadable, constants, hright, List.not_mem_nil]
    simpa using hleft

end Step

namespace Rule

variable {extend : String → String} {rule : String} {s : Step}

theorem normalizeText_of_ok (extend : String → String) (hs : Step.ofText rule = .ok s) :
    normalizeText extend rule = (s.mapRefs extend).toText := by
  rw [normalizeText, hs]

theorem normalizeText_iff (hs : Step.ofText rule = .ok s) :
    (∃ t, Step.ofText (normalizeText extend rule) = .ok t ∧
      (s.mapRefs extend).Agrees Eq (· == ·) t) ↔ (s.mapRefs extend).IsReadable := by
  rw [normalizeText_of_ok extend hs]
  constructor
  · rintro ⟨t, ht, hagree⟩
    refine Step.isReadable_of_ofText ?_ (fun x hx => ?_) ht
    · rw [hagree.references_eq]
      exact (Step.isParsed_of_ofText ht).isParsedRef
    · rw [Step.operand?_mapRefs] at hx
      exact (Step.isParsed_of_ofText hs).isFinite hx
  · intro hread
    obtain ⟨t, hagree, ht⟩ := hread.ofText
    exact ⟨t, ht, hagree.beq hread⟩

/-- The step of a rule, if it has one, is readable with its identifiers in full form. -/
def Survives (extend : String → String) (rule : Value) : Prop :=
  ∀ s, Step.ofRule rule = .ok s → (s.mapRefs extend).IsReadable

/-- The identifiers of a rule have full forms that could have been read from a rule, and that stay
as they are. -/
def IsExtendable (ns : Namespaces) (rule : Value) : Prop :=
  ∀ ref ∈ references rule,
    IsParsedRef (ns.extend ref) ∧ ns.extend (ns.extend ref) = ns.extend ref

theorem survives_of_ok {extend : String → String} {rule : Value} (hs : Step.ofRule rule = .ok s) :
    Survives extend rule ↔ (s.mapRefs extend).IsReadable := by
  refine ⟨fun h => h s hs, fun h s' hs' => ?_⟩
  obtain rfl : s = s' := Except.ok.inj (hs.symm.trans hs')
  exact h

theorem ofRule_normalize (extend : String → String) {rule : Value}
    (hs : Step.ofRule rule = .ok s) :
    Step.ofRule (normalize extend rule) = Step.ofText (s.mapRefs extend).toText := by
  cases rule with
  | text rule =>
    change Step.ofText (normalizeText extend rule) = _
    rw [normalizeText_of_ok extend hs]
  | _ => contradiction

theorem survives_iff {ns : Namespaces} {rule : Value} (h : IsExtendable ns rule)
    (hs : Step.ofRule rule = .ok s) :
    Survives ns.extend rule ↔ ∃ t, Step.ofRule (normalize ns.extend rule) = .ok t := by
  rw [ofRule_normalize ns.extend hs, survives_of_ok hs]
  constructor
  · intro hread
    obtain ⟨t, -, ht⟩ := hread.ofText
    exact ⟨t, ht⟩
  · rintro ⟨t, ht⟩
    refine Step.isReadable_of_ofText (fun ref href => ?_) (fun x hx => ?_) ht
    · rw [Step.references_mapRefs] at href
      obtain ⟨name, hname, rfl⟩ := List.mem_map.1 href
      exact (h name (by rwa [references_of_ok hs])).1
    · rw [Step.operand?_mapRefs] at hx
      exact (Step.isParsed_of_ofRule hs).isFinite hx

variable {ns : Namespaces}

theorem agrees_of_mapRefs {t : Step}
    (hidem : ∀ ref ∈ s.references, ns.extend (ns.extend ref) = ns.extend ref)
    (h : (s.mapRefs ns.extend).Agrees Eq Alike t) : s.Agrees ns.SameFull Alike t := by
  have hsame : ∀ ref ∈ s.references, ∀ ref', ns.extend ref = ref' → ns.SameFull ref ref' := by
    rintro ref href _ rfl
    exact (hidem ref href).symm
  cases s with
  | roundUp => cases h with
    | roundUp => exact .roundUp
  | atLeast x => cases h with
    | atLeast hx => exact .atLeast hx
  | choose ref comparison x y z => cases h with
    | choose href _ hx hy hz =>
      exact .choose (hsame ref (by simp [Step.references]) _ href) comparison hx hy hz
  | reuse ref => cases h with
    | reuse href => exact .reuse (hsame ref (by simp [Step.references]) _ href)
  | chain left op right => cases h with
    | chain hleft _ hright =>
      refine .chain ?_ op ?_
      · cases left with
        | none => cases hleft with
          | none => exact .none
        | some ref => cases hleft with
          | some href => exact .some (hsame ref (by simp [Step.references]) _ href)
      · cases right with
        | number x => cases hright with
          | number hx => exact .number hx
        | ref name => cases hright with
          | ref hname =>
            exact .ref (hsame name (by simp [Step.references, Term.ref?]) _ hname)

theorem Survives.follows {rule : Value} (h : Survives ns.extend rule)
    (hext : IsExtendable ns rule) : Follows ns rule (normalize ns.extend rule) := by
  intro s hs
  have hidem : ∀ ref ∈ s.references, ns.extend (ns.extend ref) = ns.extend ref := by
    intro ref href
    exact (hext ref (by rwa [references_of_ok hs])).2
  obtain ⟨t, hagree, ht⟩ := (h s hs).ofText
  refine ⟨t, ?_, agrees_of_mapRefs hidem hagree⟩
  rw [ofRule_normalize ns.extend hs, ht]

theorem follows_refl (ns : Namespaces) (rule : Value) : Follows ns rule rule := fun s hs =>
  ⟨s, hs, .refl ns.sameFull_refl .refl s⟩

end Rule

def Order.normalize (extend : String → String) (rules : Order) : Order :=
  rules.map (Rule.normalize extend)

/-- The same value, where doubles are compared as numbers. -/
def Value.Same (v w : Value) : Prop :=
  v = w ∨ ∃ x y, v = .float x ∧ w = .float y ∧ (x == y) = true

theorem Value.Alike.same {v w : Value} (h : v.Alike w) : v.Same w := by
  rcases h with rfl | ⟨s, t, rfl, rfl⟩
  · exact Or.inl rfl
  · refine Or.inr ⟨_, _, rfl, rfl, (alike_zero s t).beq ?_⟩
    cases s <;> decide

theorem Order.follows_normalize {ns : Namespaces} {rules : Order}
    (hext : ∀ rule ∈ rules, Rule.IsExtendable ns rule)
    (h : ∀ rule ∈ rules, Rule.Survives ns.extend rule) :
    List.Forall₂ (Rule.Follows ns) rules (rules.normalize ns.extend) := by
  unfold Order.normalize
  rw [List.forall₂_map_right_iff]
  exact List.forall₂_same.2 fun rule hrule => (h rule hrule).follows (hext rule hrule)

variable {ns : Namespaces} {rules rules' : Order} {values : Table Value}
  {orders orders' : Table Order} {v : Value}

theorem exists_step_of_executeOrder (hv : executeOrder ns rules values orders = .ok v) :
    ∀ rule ∈ rules, ∃ s, Step.ofRule rule = .ok s := by
  intro rule hrule
  cases hr : (Session.new ns orders values).execute rules none with
  | mk result t =>
    obtain rfl : result = .ok v := (congrArg Prod.fst hr).symm.trans hv
    have hread := Session.value?_of_execute (Session.unsettled_new ns orders values) hr
    exact (Order.read_of_value? hread rule hrule).1

theorem executeOrder_of_follows (hrules : List.Forall₂ (Rule.Follows ns) rules rules')
    (horders : ∀ key, Option.Rel (List.Forall₂ (Rule.Follows ns))
      ((orders.mapKeys ns.extend).get? key) ((orders'.mapKeys ns.extend).get? key))
    (hsize : (orders.mapKeys ns.extend).size = (orders'.mapKeys ns.extend).size)
    (hv : executeOrder ns rules values orders = .ok v) :
    ∃ w, executeOrder ns rules' values orders' = .ok w ∧ v.Same w := by
  have hm : (Session.new ns orders values).Matches ns (Session.new ns orders' values) := by
    exact ⟨rfl, rfl, rfl, horders, fun key => rel_refl .refl _⟩
  have hdepth : (Session.new ns orders values).depth = (Session.new ns orders' values).depth :=
    congrArg (· + 1) hsize
  have h := Evaluation.follows_execute rules rules' none
    (Evaluation.resolves_resolve (Session.new ns orders values).depth) hrules hm
  unfold executeOrder Session.execute at hv ⊢
  rw [← hdepth]
  generalize Evaluation.resolve (Session.new ns orders values).depth = resolve at hv h ⊢
  generalize hrun : (Evaluation.execute resolve rules none).run (Session.new ns orders values) = r
    at hv
  obtain ⟨result, s'⟩ := r
  obtain rfl : result = .ok v := hv
  obtain ⟨w, t', hrun', halike, -⟩ := (h.ok_of_run hrun).exists_run
  exact ⟨w, congrArg Prod.fst hrun', halike.same⟩

theorem follows_get?_normalize
    (h : ∀ entry ∈ orders.entries, ∀ rule ∈ entry.2,
      Rule.IsExtendable ns rule ∧ Rule.Survives ns.extend rule) (key : String) :
    Option.Rel (List.Forall₂ (Rule.Follows ns)) ((orders.mapKeys ns.extend).get? key)
      (((orders.map (Order.normalize ns.extend)).mapKeys ns.extend).get? key) := by
  rw [Table.mapKeys_map, Table.get?_map]
  cases hget : (orders.mapKeys ns.extend).get? key with
  | none => exact .none
  | some rules =>
    rw [Table.get?_mapKeys] at hget
    obtain ⟨entry, hlast, rfl⟩ := Option.map_eq_some_iff.1 hget
    have hentry := List.mem_of_mem_filter (List.mem_of_getLast? hlast)
    exact .some (Order.follows_normalize (fun rule hrule => (h entry hentry rule hrule).1)
      fun rule hrule => (h entry hentry rule hrule).2)

/-- The normal form of a rule has the step of the rule with its identifiers in full form just if
that step is readable, which comes down to its constants if its references stay clean. So an order
with a value keeps it in normal form just if all its rules survive, and the orders that it reads can
be in normal form as well if all their rules survive. -/
theorem normalization_exact {rule : String} {s : Step} (hs : Step.ofText rule = .ok s)
    (extend : String → String) (ns : Namespaces) (rules : Order) (values : Table Value)
    (orders : Table Order) :
    ((∃ t, Step.ofText (Rule.normalizeText extend rule) = .ok t ∧
        (s.mapRefs extend).Agrees Eq (· == ·) t) ↔ (s.mapRefs extend).IsReadable) ∧
    ((∀ ref, IsCleanRef ref → IsCleanRef (extend ref)) →
      (∀ ref ∈ s.references, ref ≠ "" ∧ '\n' ∉ (extend ref).toList) →
      ((s.mapRefs extend).IsReadable ↔ ∀ x ∈ s.constants, IsPlain x)) ∧
    ∀ v, executeOrder ns rules values orders = .ok v →
      (∀ rule ∈ rules, Rule.IsExtendable ns rule) →
      ((∃ w, executeOrder ns (rules.normalize ns.extend) values orders = .ok w ∧ v.Same w) ↔
        ∀ rule ∈ rules, Rule.Survives ns.extend rule) ∧
      ((∀ rule ∈ rules, Rule.Survives ns.extend rule) →
        (∀ entry ∈ orders.entries, ∀ rule ∈ entry.2,
          Rule.IsExtendable ns rule ∧ Rule.Survives ns.extend rule) →
        ∃ w, executeOrder ns (rules.normalize ns.extend) values
          (orders.map (Order.normalize ns.extend)) = .ok w ∧ v.Same w) := by
  refine ⟨Rule.normalizeText_iff hs, Step.isReadable_mapRefs_iff (Step.isParsed_of_ofText hs),
    fun v hv hext => ⟨⟨?_, ?_⟩, ?_⟩⟩
  · rintro ⟨w, hw, -⟩ rule hrule
    obtain ⟨step, hstep⟩ := exists_step_of_executeOrder hv rule hrule
    rw [Rule.survives_iff (hext rule hrule) hstep]
    exact exists_step_of_executeOrder hw _ (List.mem_map_of_mem hrule)
  · intro hsurvives
    have hrefl : ∀ rules : Order, List.Forall₂ (Rule.Follows ns) rules rules := fun rules =>
      List.forall₂_same.2 fun rule _ => Rule.follows_refl ns rule
    exact executeOrder_of_follows (Order.follows_normalize hext hsurvives)
      (fun key => rel_refl hrefl _) rfl hv
  · intro hsurvives horders
    refine executeOrder_of_follows (Order.follows_normalize hext hsurvives)
      (follows_get?_normalize horders) ?_ hv
    rw [Table.mapKeys_map]
    exact (List.length_map _).symm

def Order.product : Order := [.text "[kno:a]*kno:b"]

theorem normalization_exact_product : ∃ t v w,
    Step.ofText (Rule.normalizeText Namespaces.standard.extend "[kno:a]*kno:b") = .ok t ∧
    (Step.chain (some "http://knorke/a") .mul (.ref "http://knorke/b")).Agrees Eq (· == ·) t ∧
    executeOrder .standard Order.product
      (Table.ofList [("kno:a", .int 2), ("kno:b", .int 3)]) Table.empty = .ok v ∧
    executeOrder .standard (Order.product.normalize Namespaces.standard.extend)
      (Table.ofList [("kno:a", .int 2), ("kno:b", .int 3)]) Table.empty = .ok w ∧ v.Same w := by
  have hs : Step.ofText "[kno:a]*kno:b" = .ok (.chain (some "kno:a") .mul (.ref "kno:b")) := rfl
  have hrule : Step.ofRule (.text "[kno:a]*kno:b") =
      .ok (.chain (some "kno:a") .mul (.ref "kno:b")) := hs
  have ha : Namespaces.standard.extend "kno:a" = "http://knorke/a" := by decide +kernel
  have hb : Namespaces.standard.extend "kno:b" = "http://knorke/b" := by decide +kernel
  have hcleana : IsCleanRef "http://knorke/a" := by decide +kernel
  have hcleanb : IsCleanRef "http://knorke/b" := by decide +kernel
  have hread : (Step.mapRefs Namespaces.standard.extend
      (.chain (some "kno:a") .mul (.ref "kno:b"))).IsReadable := by
    simpa [Step.mapRefs, Term.mapRef, Step.IsReadable, Term.IsReadable, ha, hb, hcleana] using
      hcleanb
  have hext : ∀ rule ∈ Order.product, Rule.IsExtendable .standard rule := by
    intro rule hmem ref href
    obtain rfl := List.mem_singleton.1 hmem
    rw [Rule.references_of_ok hrule] at href
    refine ⟨?_, Namespaces.standard_extend_extend ref⟩
    have href' : ref = "kno:a" ∨ ref = "kno:b" := by
      simpa [Step.references, Term.ref?] using href
    rcases href' with rfl | rfl
    · rw [ha]
      exact (isCleanRef_iff.1 hcleana).2
    · rw [hb]
      exact (isCleanRef_iff.1 hcleanb).2
  have hsurvives : ∀ rule ∈ Order.product, Rule.Survives Namespaces.standard.extend rule := by
    intro rule hmem
    obtain rfl := List.mem_singleton.1 hmem
    exact (Rule.survives_of_ok hrule).2 hread
  obtain ⟨v, hv⟩ : ∃ v, executeOrder .standard Order.product
      (Table.ofList [("kno:a", .int 2), ("kno:b", .int 3)]) Table.empty = .ok v :=
    exists_ok_iff.2 (by decide +kernel)
  obtain ⟨hstep, -, horder⟩ := normalization_exact hs Namespaces.standard.extend .standard
    Order.product (Table.ofList [("kno:a", .int 2), ("kno:b", .int 3)]) Table.empty
  obtain ⟨t, ht, hagree⟩ := hstep.2 hread
  obtain ⟨w, hw, hsame⟩ := (horder v hv hext).1.2 hsurvives
  simp only [Step.mapRefs, Term.mapRef, Option.map_some, ha, hb] at hagree
  exact ⟨t, v, w, ht, hagree, hv, hw, hsame⟩

/-- A threshold below one ten thousandth, under which the product with zero is raised. -/
def Order.raised : Order := [.text "[kno:a]*0", .text "MAX(result, 0.00001)"]

/-- Prefixes of which one stands for the other. -/
def Namespaces.chained : Namespaces := Namespaces.standard.addAll [("p", "q:"), ("q", "http://u/")]

/-- A small threshold is written with an exponent, and a threshold with an exponent is not read. Apart
from that, an identifier whose full form stands for another one is lost when a rule that has its full
form is read. -/
theorem normalization_loses_threshold :
    (∃ s, Step.ofText "MAX(result, 0.00001)" = .ok s) ∧
    Rule.normalizeText id "MAX(result, 0.00001)" = "MAX(result,1e-05)" ∧
    (¬ ∃ t, Step.ofText "MAX(result,1e-05)" = .ok t) ∧
    (∃ v, executeOrder .standard Order.raised (Table.ofList [("kno:a", .int 1)]) Table.empty =
      .ok v) ∧
    (¬ ∃ w, executeOrder .standard (Order.raised.normalize Namespaces.standard.extend)
      (Table.ofList [("kno:a", .int 1)]) Table.empty = .ok w) ∧
    (∃ v, executeOrder .chained [.text "[p:a]*2"] (Table.ofList [("p:a", .int 3)]) Table.empty =
      .ok v) ∧
    ¬ ∃ w, executeOrder .chained (Order.normalize Namespaces.chained.extend [.text "[p:a]*2"])
      (Table.ofList [("p:a", .int 3)]) Table.empty = .ok w := by
  simp only [exists_ok_iff]
  decide +kernel

end FormulaGraph
