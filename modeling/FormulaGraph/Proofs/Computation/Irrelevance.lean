import FormulaGraph.Proofs.Calendar.Text
import FormulaGraph.Proofs.Computation.Congruence
import FormulaGraph.Proofs.Computation.Filling

/-! Triples that make no difference. What a computation takes from its store are the triples about
the entities of its type and those about their computation orders; triples about other subjects may
be told at any time. Only a type that names a date is another one next to dates alone, so that a
triple which ends that makes a difference. -/
namespace FormulaGraph

open Column (isText)

theorem Value.kind_eq_text_iff {v : Value} (s : String) :
    v.kind = (Value.text s).kind ↔ isText v = true := by
  cases v with
  | operand o => cases o <;> simp [kind, isText]
  | _ => simp [kind, isText]

namespace Triple

variable {ns : Namespaces} {t u : Triple}

theorem isText_of_sameContent (h : t.sameContent ns u = true) :
    isText t.object = isText u.object := by
  have hkind : t.object.kind = u.object.kind := congrArg (·.2.2.1) (sameContent_iff.1 h)
  rw [Bool.eq_iff_iff, ← Value.kind_eq_text_iff "", ← Value.kind_eq_text_iff "", hkind]

end Triple

namespace Store

variable {prefixes : Namespaces} {triples triples' : List Triple}

def tell (prefixes : Namespaces) (rows : List (List Value)) : Store :=
  ((empty prefixes).addTriples rows).2

variable {P : Triple → Prop}

end Store

namespace Entity

/-- Whether discovery takes a subject to be of a type. -/
def finds (store : Store) (entityType : Value) (subject : String) : Bool :=
  match (typePattern entityType).matching .byKind store with
  | .ok typing => covers store.namespaces typing subject
  | .error _ => false

section Inserting

variable {prefixes : Namespaces} {triples triples' : List Triple} {P : Triple → Prop}
variable {name : String}

variable (h : Inserted P triples triples')
  (hkind : Iso.moment? (prefixes.extend (Text.trim name)) = none ∨
    ((Store.filled prefixes triples).objectKind = .moments ↔
      (Store.filled prefixes triples').objectKind = .moments))
include hkind

variable (hP : ∀ t, P t → covers prefixes (typing (.filled prefixes triples') name) t.subject = false)
include h hP

end Inserting

end Entity

namespace Engine

/-- A value that an entity which is found has for its computation order. -/
def FindsOrder (e : Engine) (order : Value) : Prop :=
  ∃ found key entity, e.discover = .ok found ∧ found.result.get? key = some entity ∧
    entity.computationOrder = some order

/-- A triple about neither an entity of the type that is looked for nor the computation order of
one. -/
structure Foreign (e : Engine) (t : Triple) : Prop where
  untyped : Entity.finds e.store e.settings.vocabulary.entityType t.subject = false
  unlisted : ∀ order, e.FindsOrder order →
    (Value.text t.subject).eq (e.store.namespaces.comparisonKey order) = false

variable {e : Engine} {prefixes : Namespaces} {rows rows' : List (List Value)} {store' : Store}
variable {name : String}

/-- Whether all computation orders of entities that are found pass a test. -/
def allOrders (e : Engine) (p : Value → Bool) : Bool :=
  match e.discover with
  | .ok found => found.result.entries.all fun entry => entry.2.computationOrder.all p
  | .error _ => true

theorem allOrders_iff {p : Value → Bool} :
    e.allOrders p = true ↔ ∀ order, e.FindsOrder order → p order = true := by
  unfold allOrders FindsOrder
  cases e.discover with
  | error cause => simp
  | ok found =>
    simp only [List.all_eq_true, Except.ok.injEq, Table.get?_eq_some_iff]
    constructor
    · rintro h order ⟨_, key, entity, rfl, hentity, horder⟩
      have hall := h (key, entity) hentity
      rwa [horder] at hall
    · rintro h ⟨key, entity⟩ hentity
      cases horder : entity.computationOrder with
      | none => rfl
      | some order => exact h order ⟨found, key, entity, rfl, hentity, horder⟩

theorem foreign_iff {t : Triple} : e.Foreign t ↔
    Entity.finds e.store e.settings.vocabulary.entityType t.subject = false ∧
      e.allOrders (fun order =>
        !(Value.text t.subject).eq (e.store.namespaces.comparisonKey order)) = true := by
  rw [allOrders_iff]
  simp only [Bool.not_eq_true']
  exact ⟨fun h => ⟨h.untyped, h.unlisted⟩, fun h => ⟨h.1, h.2⟩⟩

instance (e : Engine) (t : Triple) : Decidable (e.Foreign t) := decidable_of_iff _ foreign_iff.symm

section Inserting

variable {triples triples' : List Triple} {ns : Namespaces} {settings : Settings}
variable {base : Table Value}

end Inserting

def squareRows : List (List Value) := [
  [.text "http://u/d", .text "rdf:type", .text "kno:StatisticValue"],
  [.text "http://u/d", .text "kno:computationOrder", .text "http://u/o"],
  [.text "http://u/o", .text "kno:_1", .text "[http://u/x]*[http://u/x]"]]

end Engine
end FormulaGraph
