import FormulaGraph.Proofs.Computation.Congruence
import FormulaGraph.Proofs.Computation.Filling
import FormulaGraph.Proofs.Rule.Spelling

/-! Prefixes of an engine that its store does not know. An identifier may be written with such a prefix
or in full where it is a reference to a computation order, stands in a rule or names a supplied value;
as the subject of a triple it may not, nor as the type of entities. -/
namespace FormulaGraph

open Column (isText)

/-- Two ways to write one identifier: alike, or with a prefix in one and with its namespace in the
other. -/
inductive Namespaces.Spells (name uri : String) : String → String → Prop where
  | alike (x : String) : Spells name uri x x
  | expanded (rest : String) (h : rest.toList.all isLocalChar = true) :
      Spells name uri (name ++ ":" ++ rest) (uri ++ rest)
  | shortened (rest : String) (h : rest.toList.all isLocalChar = true) :
      Spells name uri (uri ++ rest) (name ++ ":" ++ rest)

theorem Namespaces.Spells.sameFull {ns : Namespaces} {name uri x y : String}
    (hget : ns.table.get? name = some uri) (hname : isPrefixName name.toList = true)
    (hslash : '/' ∈ uri.toList) (h : Spells name uri x y) : ns.SameFull x y := by
  have hfull : ∀ rest, ns.extend (uri ++ rest) = uri ++ rest := fun rest => by
    refine extend_of_slash ?_
    rw [String.toList_append]
    exact List.mem_append_left _ hslash
  cases h with
  | alike => rfl
  | expanded rest hrest => exact (extend_prefixed hget hname hrest).trans (hfull _).symm
  | shortened rest hrest => exact (hfull _).trans (extend_prefixed hget hname hrest).symm

namespace Entity

def types (prefixes : Namespaces) (t : Triple) : Bool :=
  (Value.text t.predicate).eq (prefixes.comparisonKey (.text typePredicate))

def namesOrder (ns : Namespaces) (orderPredicate : Value) (t : Triple) : Bool :=
  (PropertyMap.forms ns orderPredicate).any (ns.shortenValue (.text t.predicate)).eq

end Entity

/-- Triples of texts that differ in the spelling of a reference to a computation order, or of the
identifiers in a rule. -/
inductive Triple.Respells (prefixes ns : Namespaces) (orderPredicate : Value)
    (spells : String → String → Prop) : Triple → Triple → Prop where
  | same {t : Triple} (h : isText t.object = true) : Respells prefixes ns orderPredicate spells t t
  | reference {subject predicate x y : String} (h : spells x y)
      (htypes : Entity.types prefixes ⟨subject, predicate, .text x⟩ = false) :
      Respells prefixes ns orderPredicate spells ⟨subject, predicate, .text x⟩
        ⟨subject, predicate, .text y⟩
  | rule {subject predicate x y : String} {s s' : Step} (hs : Step.ofText x = .ok s)
      (hs' : Step.ofText y = .ok s') (h : s.Agrees spells Eq s')
      (htypes : Entity.types prefixes ⟨subject, predicate, .text x⟩ = false)
      (hnames : Entity.namesOrder ns orderPredicate ⟨subject, predicate, .text x⟩ = false) :
      Respells prefixes ns orderPredicate spells ⟨subject, predicate, .text x⟩
        ⟨subject, predicate, .text y⟩

namespace Triple.Respells

variable {prefixes ns : Namespaces} {orderPredicate : Value} {spells : String → String → Prop}
  {t u : Triple}

theorem subject_eq (h : Respells prefixes ns orderPredicate spells t u) : t.subject = u.subject := by
  cases h <;> rfl

theorem predicate_eq (h : Respells prefixes ns orderPredicate spells t u) :
    t.predicate = u.predicate := by
  cases h <;> rfl

theorem isText_left (h : Respells prefixes ns orderPredicate spells t u) :
    isText t.object = true := by
  cases h with
  | same h => exact h
  | reference => rfl
  | rule => rfl

theorem isText_right (h : Respells prefixes ns orderPredicate spells t u) :
    isText u.object = true := by
  cases h with
  | same h => exact h
  | reference => rfl
  | rule => rfl

theorem eq_of_types (h : Respells prefixes ns orderPredicate spells t u)
    (htypes : Entity.types prefixes t = true) : t = u := by
  cases h with
  | same => rfl
  | reference _ hnot =>
    rw [hnot] at htypes
    contradiction
  | rule _ _ _ hnot =>
    rw [hnot] at htypes
    contradiction

variable (hspells : ∀ x y, spells x y → ns.SameFull x y)
include hspells

theorem order_eq (h : Respells prefixes ns orderPredicate spells t u)
    (hshort : ∀ x, ns.extend (ns.shorten x) = ns.extend x)
    (hnames : Entity.namesOrder ns orderPredicate t = true) :
    ns.extendValue (ns.shortenValue t.object) = ns.extendValue (ns.shortenValue u.object) := by
  cases h with
  | same => rfl
  | @reference _ _ x y h _ =>
    have hfull : ns.extend x = ns.extend y := hspells x y h
    change Value.text (ns.extend (ns.shorten x)) = .text (ns.extend (ns.shorten y))
    rw [hshort, hshort, hfull]
  | rule _ _ _ _ hnot =>
    rw [hnot] at hnames
    contradiction

theorem ruleOf_eq (h : Respells prefixes ns orderPredicate spells t u) :
    Entity.ruleOf ns t = Entity.ruleOf ns u := by
  cases h with
  | same => rfl
  | @reference _ predicate x y h _ =>
    have hfull : ns.extend x = ns.extend y := hspells x y h
    exact congrArg (fun full => (ns.shortenValue (.text predicate), Rule.normalizeText ns.extend full))
      hfull
  | @rule _ predicate x y s s' hs hs' h _ _ =>
    have hnormal : Rule.normalizeText ns.extend (ns.extend x) =
        Rule.normalizeText ns.extend (ns.extend y) := by
      rw [Step.extend_of_ofText ns hs, Step.extend_of_ofText ns hs',
        Rule.normalizeText_of_agrees hs hs' (h.imp hspells)]
    exact congrArg (ns.shortenValue (.text predicate), ·) hnormal

end Triple.Respells

namespace Entity

variable {prefixes ns : Namespaces} {entityType orderPredicate : Value}
  {spells : String → String → Prop} {triples triples' : List Triple}
  (h : List.Forall₂ (Triple.Respells prefixes ns orderPredicate spells) triples triples')

theorem types_of_admits {t : Triple}
    (hadmits : (typePattern entityType).admits prefixes t = true) : types prefixes t = true := by
  have hpredicate : PatternTerm.ofValue (.text typePredicate) = .const (.text typePredicate) := rfl
  unfold Pattern.admits typePattern at hadmits
  rw [hpredicate] at hadmits
  exact (Bool.and_eq_true_iff.1 (Bool.and_eq_true_iff.1 hadmits).1).2

include h

theorem isTyped_respells (subject : String) : isTyped ⟨prefixes, triples⟩ entityType subject =
    isTyped ⟨prefixes, triples'⟩ entityType subject := by
  unfold isTyped covers Store.matched
  rw [List.any_filter, List.any_filter]
  refine any_eq_of_forall₂ h fun t u htu => ?_
  by_cases htypes : types prefixes t = true
  · rw [htu.eq_of_types htypes]
  · have hnot : ∀ {v : Triple}, types prefixes v = types prefixes t →
        (typePattern entityType).admits prefixes v = false := fun heq =>
      Bool.eq_false_iff.2 fun hadmits => htypes (heq ▸ types_of_admits hadmits)
    have hsame : types prefixes u = types prefixes t := by
      unfold types
      rw [htu.predicate_eq]
    dsimp only
    rw [hnot rfl, hnot hsame, Bool.false_and, Bool.false_and, Bool.false_and, Bool.false_and]

theorem told_respells : List.Forall₂ (Triple.Respells prefixes ns orderPredicate spells)
    (told ⟨prefixes, triples⟩ entityType) (told ⟨prefixes, triples'⟩ entityType) := by
  refine List.rel_filter (fun t u htu => ?_) h
  dsimp only
  rw [isTyped_respells h, htu.subject_eq]

theorem subjects_respells : subjects ⟨prefixes, triples⟩ entityType =
    subjects ⟨prefixes, triples'⟩ entityType :=
  congrArg List.eraseDups (map_eq_of_forall₂ (told_respells h) fun _ _ htu => htu.subject_eq)

theorem heads_respells (ns' : Namespaces) :
    List.Forall₂ (Triple.Respells prefixes ns orderPredicate spells) (heads ns' triples)
      (heads ns' triples') := by
  refine forall₂_keepFirst (fun t u t' u' ht hu => ?_) h
  unfold samePredicate
  rw [ht.predicate_eq, hu.predicate_eq]

theorem described_respells (uri : String) :
    List.Forall₂ (Triple.Respells prefixes ns orderPredicate spells)
      (described ⟨prefixes, triples⟩ ns entityType uri)
      (described ⟨prefixes, triples'⟩ ns entityType uri) := by
  refine List.rel_filter (fun t u htu => ?_) (told_respells h)
  dsimp only
  rw [htu.subject_eq]

theorem orderTriples_respells {order : String} (hconst : isVariable (.text order) = false) :
    List.Forall₂ (Triple.Respells prefixes ns orderPredicate spells)
      (orderTriples ⟨prefixes, triples⟩ order) (orderTriples ⟨prefixes, triples'⟩ order) := by
  rw [orderTriples_eq hconst, orderTriples_eq hconst]
  refine List.rel_filter (fun t u htu => ?_) h
  dsimp only
  rw [htu.subject_eq]

theorem orderIn_respells (hspells : ∀ x y, spells x y → ns.SameFull x y)
    (hshort : ∀ x, ns.extend (ns.shorten x) = ns.extend x) :
    orderIn ns orderPredicate triples = orderIn ns orderPredicate triples' := by
  have hheads := heads_respells h ns
  have hkey : ∀ key ∈ PropertyMap.forms ns orderPredicate,
      ((heads ns triples).find? fun t => (ns.shortenValue (.text t.predicate)).eq key).map
          (fun t => ns.extendValue (ns.shortenValue t.object)) =
        ((heads ns triples').find? fun t => (ns.shortenValue (.text t.predicate)).eq key).map
          fun t => ns.extendValue (ns.shortenValue t.object) := by
    intro key hkey
    refine find?_eq_of_forall₂ hheads (fun t u htu => by rw [htu.predicate_eq]) fun t u htu ht => ?_
    exact htu.order_eq hspells hshort (List.any_eq_true.2 ⟨key, hkey, ht⟩)
  unfold orderIn
  generalize PropertyMap.forms ns orderPredicate = keys at hkey ⊢
  induction keys with
  | nil => rfl
  | cons key keys ih =>
    rw [List.findSome?_cons, List.findSome?_cons, hkey key List.mem_cons_self,
      ih fun k hk => hkey k (List.mem_cons_of_mem _ hk)]

theorem ruleOf_respells (hspells : ∀ x y, spells x y → ns.SameFull x y) :
    (heads ns triples).map (ruleOf ns) = (heads ns triples').map (ruleOf ns) :=
  map_eq_of_forall₂ (heads_respells h ns) fun _ _ htu => htu.ruleOf_eq hspells

theorem isText_of_respells : (∀ t ∈ triples, isText t.object = true) ∧
    ∀ t ∈ triples', isText t.object = true := by
  constructor
  · exact ((List.forall₂_and_left _ _).1 (h.imp fun _ _ htu => ⟨htu.isText_left, htu⟩)).1
  · have hflip : List.Forall₂ (flip (Triple.Respells prefixes ns orderPredicate spells)) triples'
        triples := List.Forall₂.flip h
    exact ((List.forall₂_and_left _ _).1 (hflip.imp fun _ _ htu => ⟨htu.isText_right, htu⟩)).1

omit h in
theorem exists_of_orderIn {order : Value} (horder : orderIn ns orderPredicate triples = some order) :
    ∃ t ∈ triples, namesOrder ns orderPredicate t = true ∧
      order = ns.extendValue (ns.shortenValue t.object) := by
  obtain ⟨key, hkey, hfound⟩ := List.exists_of_findSome?_eq_some horder
  obtain ⟨t, ht, rfl⟩ := Option.map_eq_some_iff.1 hfound
  have hshort := List.find?_some ht
  exact ⟨t, mem_of_mem_keepFirst (List.mem_of_find?_eq_some ht),
    List.any_eq_true.2 ⟨key, hkey, hshort⟩, rfl⟩

end Entity

namespace Engine

/-- The prefixes of an engine that is given none of its own: those of its store, and on top those of
its settings. -/
def resolver (prefixes : Namespaces) (settings : Settings) : Namespaces :=
  (Namespaces.ofTable prefixes.table).addAll settings.namespaces.entries

variable {prefixes ns : Namespaces} {settings : Settings} {vocabulary : Vocabulary} {name uri : String}
  {triples triples' : List Triple} {base base' : Table Value} {spells : String → String → Prop}

variable (prefixes ns) in
theorem exists_discover_filled (htexts : ∀ t ∈ triples, isText t.object = true)
    (htype : isText vocabulary.entityType = true)
    (hconst : isVariable vocabulary.entityType = false)
    (hpredicate : isText vocabulary.orderPredicate = true) :
    ∃ found, Entity.discover (.filled prefixes triples) ns vocabulary = .ok found ∧
      found.result.map Entity.core =
        Table.ofList ((Entity.subjects ⟨prefixes, triples⟩ vocabulary.entityType).map fun s =>
          (ns.extend s, ns.extend s, Entity.orderIn ns vocabulary.orderPredicate
            (Entity.described ⟨prefixes, triples⟩ ns vocabulary.entityType (ns.extend s)))) := by
  have htextual : (Store.filled prefixes triples).Textual := Store.textual_filled htexts
  obtain ⟨found, hfound, hcore⟩ := Entity.exists_discover_told ns htextual htype hconst hpredicate
  refine ⟨found, hfound, hcore.trans ?_⟩
  unfold Entity.orderIn
  simp only [Entity.subjects_filled htexts, Entity.heads_described_filled htexts]

theorem mapKeys_respelled (hsame : ∀ x y, spells x y → ns.SameFull x y)
    (hbase : List.Forall₂ (fun a b => spells a.1 b.1 ∧ a.2 = b.2) base.entries base'.entries) :
    base'.mapKeys ns.extend = base.mapKeys ns.extend := by
  refine congrArg Table.ofList (map_eq_of_forall₂ hbase fun a b hab => ?_).symm
  exact Prod.ext (hsame _ _ hab.1) hab.2

/-- The orders of entities that are found in a filled store are named by its triples. -/
theorem exists_of_orderOf {found : Reported (Table Entity)}
    (hcore : found.result.map Entity.core =
      Table.ofList ((Entity.subjects ⟨prefixes, triples⟩ vocabulary.entityType).map fun s =>
        (ns.extend s, ns.extend s, Entity.orderIn ns vocabulary.orderPredicate
          (Entity.described ⟨prefixes, triples⟩ ns vocabulary.entityType (ns.extend s)))))
    {key owner : String} {order : Value}
    (horder : Entity.orderOf found.result ns key = some (owner, order)) :
    ∃ t ∈ triples, Entity.namesOrder ns vocabulary.orderPredicate t = true ∧
      order = ns.extendValue (ns.shortenValue t.object) := by
  obtain ⟨core, hget, hsome⟩ := Option.bind_eq_some_iff.1 horder
  obtain ⟨order', horder', heq⟩ := Option.map_eq_some_iff.1 hsome
  obtain rfl := (Prod.mk.inj heq).2
  rw [hcore, Table.get?_ofList] at hget
  obtain ⟨s, -, hs⟩ := List.mem_map.1 (Table.mem_of_lastOf hget)
  rw [← (Prod.mk.inj hs).2] at horder'
  obtain ⟨t, ht, hnames, heq⟩ := Entity.exists_of_orderIn horder'
  exact ⟨t, List.mem_of_mem_filter (List.mem_of_mem_filter ht), hnames, heq⟩

theorem rulesOf_respelled {orderPredicate : Value} {order owner : String}
    (hsame : ∀ x y, spells x y → ns.SameFull x y) (hconst : isVariable (.text order) = false)
    (htriples : List.Forall₂ (Triple.Respells prefixes ns orderPredicate spells) triples triples') :
    (Entity.rulesOf (.filled prefixes triples) ns owner (.text order)).map (·.result) =
      (Entity.rulesOf (.filled prefixes triples') ns owner (.text order)).map (·.result) := by
  obtain ⟨htexts, htexts'⟩ := Entity.isText_of_respells htriples
  rw [Entity.rulesOf_eq (Store.textual_filled htexts) hconst,
    Entity.rulesOf_eq (Store.textual_filled htexts') hconst,
    Entity.heads_orderTriples_filled htexts, Entity.heads_orderTriples_filled htexts',
    Entity.ruleOf_respells (Entity.orderTriples_respells htriples hconst) hsame]

/-- A prefix that an engine knows need not be one of its store. Where references to computation
orders, the identifiers in rules and the names of supplied values are spelled with the prefix or in
full, the answer is the same. -/
theorem sameAnswer_respelled (hname : Namespaces.isPrefixName name.toList = true)
    (hget : (resolver prefixes settings).table.get? name = some uri)
    (hslash : '/' ∈ uri.toList)
    (hidem : ∀ x, (resolver prefixes settings).extend ((resolver prefixes settings).extend x) =
      (resolver prefixes settings).extend x)
    (htype : isText settings.vocabulary.entityType = true)
    (hconst : isVariable settings.vocabulary.entityType = false)
    (hpredicate : isText settings.vocabulary.orderPredicate = true)
    (horders : ∀ t ∈ triples, Entity.namesOrder (resolver prefixes settings)
      settings.vocabulary.orderPredicate t = true →
        isVariable ((resolver prefixes settings).extendValue t.object) = false)
    (htriples : List.Forall₂ (Triple.Respells prefixes (resolver prefixes settings)
      settings.vocabulary.orderPredicate (Namespaces.Spells name uri)) triples triples')
    (hbase : List.Forall₂ (fun a b => Namespaces.Spells name uri a.1 b.1 ∧ a.2 = b.2)
      base.entries base'.entries) :
    SameAnswer (new (.filled prefixes triples) base settings none).compute
      (new (.filled prefixes triples') base' settings none).compute := by
  have hsame : ∀ x y, Namespaces.Spells name uri x y → (resolver prefixes settings).SameFull x y :=
    fun _ _ h => h.sameFull hget hname hslash
  have hshort := Namespaces.extend_shorten_eq hidem
  obtain ⟨htexts, htexts'⟩ := Entity.isText_of_respells htriples
  obtain ⟨found, hfound, hcore⟩ := exists_discover_filled prefixes
    (resolver prefixes settings) htexts htype hconst hpredicate
  obtain ⟨found', hfound', hcore'⟩ := exists_discover_filled prefixes
    (resolver prefixes settings) htexts' htype hconst hpredicate
  have horder : ∀ s, Entity.orderIn (resolver prefixes settings) settings.vocabulary.orderPredicate
      (Entity.described ⟨prefixes, triples⟩ (resolver prefixes settings)
        settings.vocabulary.entityType s) =
      Entity.orderIn (resolver prefixes settings) settings.vocabulary.orderPredicate
        (Entity.described ⟨prefixes, triples'⟩ (resolver prefixes settings)
          settings.vocabulary.entityType s) := fun s =>
    Entity.orderIn_respells (Entity.described_respells htriples s) hsame hshort
  refine sameAnswer_compute rfl rfl (mapKeys_respelled hsame hbase)
    hidem hfound hfound' ?_ fun key name order horderOf => ?_
  · rw [hcore, hcore', Entity.subjects_respells htriples]
    simp only [horder]
  · obtain ⟨t, ht, hnames, rfl⟩ := exists_of_orderOf hcore horderOf
    obtain ⟨x, hx⟩ := exists_text (htexts t ht)
    have hvariable := horders t ht hnames
    have hfull : (resolver prefixes settings).extendValue
        ((resolver prefixes settings).shortenValue t.object) =
          .text ((resolver prefixes settings).extend x) := by
      rw [hx]
      exact congrArg Value.text (hshort x)
    rw [hx] at hvariable
    rw [hfull]
    exact rulesOf_respelled hsame hvariable htriples

def withPrefix : Settings :=
  { Settings.default with namespaces := Table.ofList [("p", "http://u/")] }

def oneRule (subject order rule : String) : List Triple := [
  ⟨subject, Namespaces.standard.extend Entity.typePredicate, .text "kno:StatisticValue"⟩,
  ⟨subject, "http://knorke/computationOrder", .text order⟩,
  ⟨"http://u/o", "http://knorke/_1", .text rule⟩]

def spelled (subject order rule key : String) : Engine :=
  new (.filled .standard (oneRule subject order rule)) (Table.ofList [(key, .int 3)]) withPrefix none

/-- The square of a supplied value, with order, rule and name of the value spelled in two ways. -/
theorem sameAnswer_respelled_square :
    SameAnswer (spelled "http://u/d" "p:o" "[p:x]*[p:x]" "p:x").compute
      (spelled "http://u/d" "http://u/o" "[http://u/x]*[http://u/x]" "http://u/x").compute := by
  have hlocal : ∀ x ∈ ["o", "x"], x.toList.all Namespaces.isLocalChar = true := by decide
  have hx : Namespaces.Spells "p" "http://u/" "p:x" "http://u/x" :=
    .expanded "x" (hlocal _ (by simp))
  have horder : Namespaces.Spells "p" "http://u/" "p:o" "http://u/o" :=
    .expanded "o" (hlocal _ (by simp))
  have hstep : Step.ofText "[p:x]*[p:x]" = .ok (.chain (some "p:x") .mul (.ref "p:x")) := by rfl
  have hstep' : Step.ofText "[http://u/x]*[http://u/x]" =
      .ok (.chain (some "http://u/x") .mul (.ref "http://u/x")) := by rfl
  have hname : Namespaces.isPrefixName "p".toList = true := by decide
  have hget : (resolver .standard withPrefix).table.get? "p" = some "http://u/" := by decide +kernel
  refine sameAnswer_respelled hname hget (by decide) (Namespaces.extend_extend (by decide +kernel))
    rfl rfl rfl (by decide +kernel) ?_ (.cons ⟨hx, rfl⟩ .nil)
  refine .cons (.same rfl) (.cons (.reference horder (by decide +kernel)) (.cons ?_ .nil))
  exact .rule hstep hstep' (.chain (.some hx) .mul (.ref hx)) (by decide +kernel) (by decide +kernel)

/-- A subject may not be spelled with the prefix: its order is not seen then. -/
theorem missingBase_of_prefixed_subject :
    Namespaces.Spells "p" "http://u/" "p:d" "http://u/d" ∧
    (∃ entity, (spelled "p:d" "http://u/o" "[p:x]*[p:x]" "p:x").compute =
      .error (.missingBase entity)) ∧
    ∃ values, (spelled "http://u/d" "http://u/o" "[p:x]*[p:x]" "p:x").compute = .ok values := by
  refine ⟨.expanded "d" (by decide), ?_, ?_⟩
  · have hrun : (spelled "p:d" "http://u/o" "[p:x]*[p:x]" "p:x").failsBy
        ComputationError.isMissingBase = true := by decide +kernel
    obtain ⟨cause, hfail, hmissing⟩ := exists_of_failsBy hrun
    obtain ⟨entity, rfl⟩ := ComputationError.exists_of_isMissingBase hmissing
    exact ⟨entity, hfail⟩
  · have hrun : (spelled "http://u/d" "http://u/o" "[p:x]*[p:x]" "p:x").compute.isOk = true := by
      decide +kernel
    cases h : (spelled "http://u/d" "http://u/o" "[p:x]*[p:x]" "p:x").compute with
    | ok values => exact ⟨values, rfl⟩
    | error cause =>
      rw [h] at hrun
      contradiction

end Engine
end FormulaGraph
