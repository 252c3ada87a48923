import FormulaGraph.Proofs.Computation.BaseValues
import FormulaGraph.Proofs.Computation.Entities

/-! What a computation takes from its store: the entities with their computation orders, and the rules
of these orders. -/
namespace FormulaGraph

namespace Entity

variable {store store' : Store} {ns : Namespaces} {entities entities' : Table Entity}

theorem derived_congr (h : entities.map core = entities'.map core) :
    derived entities = derived entities' := by
  have hget : ∀ uri, (entities.get? uri).any isDerived = (entities'.get? uri).any isDerived := by
    intro uri
    have hcore := congrArg (Table.get? · uri) h
    rw [Table.get?_map, Table.get?_map] at hcore
    have hany := congrArg (Option.any fun c : String × Option Value => c.2.isSome) hcore
    rwa [Option.any_map, Option.any_map] at hany
  have hkeys := congrArg Table.keys h
  rw [Table.keys_map, Table.keys_map] at hkeys
  unfold derived
  rw [hkeys]
  exact List.filter_congr fun uri _ => hget uri

def orderOf (entities : Table Entity) (ns : Namespaces) (uri : String) : Option (String × Value) :=
  ((entities.map core).get? (ns.extend uri)).bind fun c => c.2.map (c.1, ·)

theorem orderFor_eq (uri : String) : orderFor entities store ns uri =
    match orderOf entities ns uri with
    | some (uri, order) => some <$> rulesOf store ns uri order
    | none => .ok none := by
  unfold orderFor orderOf
  rw [Table.get?_map, Option.bind_map]
  rfl

theorem orders_congr (h : entities.map core = entities'.map core)
    (hrules : ∀ uri name order, orderOf entities ns uri = some (name, order) →
      (rulesOf store ns name order).map (·.result) = (rulesOf store' ns name order).map (·.result)) :
    orders entities store ns = orders entities' store' ns := by
  have horder : ∀ uri, (orderFor entities store ns uri).map (Option.map (·.result)) =
      (orderFor entities' store' ns uri).map (Option.map (·.result)) := by
    intro uri
    have hsame : orderOf entities' ns uri = orderOf entities ns uri := by
      unfold orderOf
      rw [h]
    rw [orderFor_eq, orderFor_eq, hsame]
    cases hfound : orderOf entities ns uri with
    | none => rfl
    | some found =>
      have hsome : ∀ rules : Except DiscoveryError (Reported (List String)),
          Except.map (Option.map (·.result)) (some <$> rules) = (rules.map (·.result)).map some :=
        fun rules => by cases rules <;> rfl
      dsimp only
      rw [hsome, hsome, hrules uri found.1 found.2 hfound]
  have hentry : ∀ (t : Table Entity) (s : Store) (uri : String), (do
      return (ns.extend uri, (← orderFor t s ns uri).map (·.result)) :
        Except DiscoveryError (String × Option (List String))) =
      ((orderFor t s ns uri).map (Option.map (·.result))).map (ns.extend uri, ·) := by
    intro t s uri
    cases orderFor t s ns uri <;> rfl
  unfold orders
  simp only [hentry, horder]
  have hderived : (entities.keys.filter fun uri => (entities.get? uri).any isDerived) =
      entities'.keys.filter fun uri => (entities'.get? uri).any isDerived := derived_congr h
  rw [hderived]

theorem unsupplied?_core (h : entities.map core = entities'.map core) (base : Table Value) :
    (unsupplied? ns base entities).map core = (unsupplied? ns base entities').map core := by
  have hfind : ∀ t : Table Entity, (unsupplied? ns base t).map core =
      ((t.map core).entries.find? fun entry =>
        !entry.2.2.isSome && !isSupplied ns base entry.1).map Prod.snd := by
    intro t
    rw [unsupplied?_eq, Table.map, List.find?_map, Option.map_map, Option.map_map]
    rfl
  rw [hfind, hfind, h]

end Entity

namespace Engine

/-- The same result, up to what else is said of an entity without a value. -/
inductive SameAnswer : Except ComputationError (Table Value) → Except ComputationError (Table Value) →
    Prop where
  | same (x : Except ComputationError (Table Value)) : SameAnswer x x
  | missing {entity entity' : Entity} (h : entity.core = entity'.core) :
      SameAnswer (.error (.missingBase entity)) (.error (.missingBase entity'))

variable {e e' : Engine}

theorem prepare_of_discover {found : Reported (Table Entity)} (h : e.discover = .ok found) :
    e.prepare = match Entity.unsupplied? e.namespaces e.base found.result with
      | some entity => .error (.missingBase entity)
      | none => ofDiscovery (e.orders found.result) >>= complete := by
  rw [prepare_eq, h]
  change (e.validate found.result e.base).bind _ = _
  unfold validate
  cases Entity.unsupplied? e.namespaces e.base found.result with
  | some entity => rfl
  | none => cases e.orders found.result <;> rfl

theorem compute_congr (hns : e'.namespaces = e.namespaces) (hsettings : e'.settings = e.settings)
    (hsupplied : e'.supplied = e.supplied) (hprepare : e'.prepare = e.prepare) :
    e'.compute = e.compute := by
  have hcheck : ∀ orders, e'.check orders = e.check orders := fun orders => by
    unfold check
    rw [hns, hsettings, hsupplied]
  simp only [compute_eq, hprepare, hcheck, hns, hsupplied]

/-- Engines that find the same entities with the same orders and rules come to the same answer. -/
theorem sameAnswer_compute {found found' : Reported (Table Entity)}
    (hns : e'.namespaces = e.namespaces) (hsettings : e'.settings = e.settings)
    (hsupplied : e'.supplied = e.supplied)
    (hidem : ∀ name, e.namespaces.extend (e.namespaces.extend name) = e.namespaces.extend name)
    (hfound : e.discover = .ok found) (hfound' : e'.discover = .ok found')
    (hcore : found.result.map Entity.core = found'.result.map Entity.core)
    (hrules : ∀ uri name order, Entity.orderOf found.result e.namespaces uri = some (name, order) →
      (Entity.rulesOf e.store e.namespaces name order).map (·.result) =
        (Entity.rulesOf e'.store e.namespaces name order).map (·.result)) :
    SameAnswer e.compute e'.compute := by
  have hrelists : (e.base.mapKeys e.namespaces.extend).Relists
      (e'.base.mapKeys e.namespaces.extend) := fun key => by
    have hkeys : e'.base.mapKeys e.namespaces.extend = e.base.mapKeys e.namespaces.extend := by
      have h := hsupplied
      unfold supplied at h
      rwa [hns] at h
    rw [hkeys]
  have hunsupplied : (Entity.unsupplied? e'.namespaces e'.base found'.result).map Entity.core =
      (Entity.unsupplied? e.namespaces e.base found.result).map Entity.core := by
    rw [hns, ← Entity.unsupplied?_core hcore,
      unsupplied?_congr (fun _ => full_of_discover hidem hfound) hrelists]
  have horders : e'.orders found'.result = e.orders found.result := by
    unfold orders
    rw [hns]
    exact (Entity.orders_congr hcore hrules).symm
  have hprepare := prepare_of_discover hfound
  have hprepare' := prepare_of_discover hfound'
  cases hmissing : Entity.unsupplied? e.namespaces e.base found.result with
  | some entity =>
    rw [hmissing] at hunsupplied hprepare
    obtain ⟨entity', hmissing', hsame⟩ := Option.map_eq_some_iff.1 hunsupplied
    rw [hmissing'] at hprepare'
    rw [compute_eq_error_iff.2 (Or.inl hprepare), compute_eq_error_iff.2 (Or.inl hprepare')]
    exact .missing hsame.symm
  | none =>
    rw [hmissing, Option.map_none, Option.map_eq_none_iff] at hunsupplied
    rw [hmissing] at hprepare
    rw [hunsupplied, horders, ← hprepare] at hprepare'
    rw [compute_congr hns hsettings hsupplied hprepare']
    exact .same _

end Engine
end FormulaGraph
