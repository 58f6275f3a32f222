import Reification.Proofs.Confinement
import Reification.Proofs.Likeness

/-!
# Worlds which go on

A reconstruction leaves alone what is known of names which are declared or have no alternatives.
Everything which a registry declares lies in a heap, and references to data types and aliases are
declared under their own names.
-/

namespace Reification

open Reconstruct (Resolver)

/-- A name which no reconstruction declares, since it is declared already or has no alternatives. -/
def World.Fixes (resolve : Resolver) (world : World) (name : String) : Prop :=
  world.registry.lookup? name ≠ none ∨ (resolve name).first? = none

/-- A world in which other names may have been declared and rules may have been added. -/
structure World.Continues (resolve : Resolver) (before after : World) : Prop where
  inherited_eq : after.registry.inherited = before.registry.inherited
  lookup?_eq : ∀ ⦃name⦄, before.Fixes resolve name →
    after.registry.lookup? name = before.registry.lookup? name
  constructorsOf_eq : ∀ ⦃name⦄, before.Fixes resolve name →
    after.registry.own.constructorsOf name = before.registry.own.constructorsOf name
  rules_le : ∀ ⦃name choice⦄, before.registry.own.rules.get? name = some choice →
    ∃ wider, after.registry.own.rules.get? name = some wider ∧
      ∀ rule ∈ choice.alternatives, rule ∈ wider.alternatives

namespace World.Continues

variable {resolve : Resolver} {before middle after : World} {name : String}

theorem of_registry_eq (registry_eq : after.registry = before.registry) :
    before.Continues resolve after := by
  constructor <;> intros <;> simp_all

theorem refl (world : World) : world.Continues resolve world := .of_registry_eq rfl

theorem fixes (continues : before.Continues resolve after) (fixes : before.Fixes resolve name) :
    after.Fixes resolve name := by
  rw [Fixes, continues.lookup?_eq fixes]
  exact fixes

theorem trans (first : before.Continues resolve middle) (second : middle.Continues resolve after) :
    before.Continues resolve after where
  inherited_eq := second.inherited_eq.trans first.inherited_eq
  lookup?_eq _ fixes := (second.lookup?_eq (first.fixes fixes)).trans (first.lookup?_eq fixes)
  constructorsOf_eq _ fixes :=
    (second.constructorsOf_eq (first.fixes fixes)).trans (first.constructorsOf_eq fixes)
  rules_le _ _ choice_eq := by
    obtain ⟨_, middle_eq, middle_le⟩ := first.rules_le choice_eq
    obtain ⟨wider, wider_eq, wider_le⟩ := second.rules_le middle_eq
    exact ⟨wider, wider_eq, fun rule mem => wider_le rule (middle_le rule mem)⟩

variable (continues : before.Continues resolve middle)

include continues

theorem of_store (store : Store) : before.Continues resolve { middle with store } :=
  continues.trans (.of_registry_eq rfl)

/-- A name may be declared which has not been fixed. -/
theorem declare (free : ¬before.Fixes resolve name) (type : Ty) :
    before.Continues resolve { middle with registry := { middle.registry with
      own := { middle.registry.own with
        declarations := middle.registry.own.declarations.insert name type } } } where
  inherited_eq := continues.inherited_eq
  lookup?_eq other fixes := by
    have distinct : other ≠ name := fun same => free (same ▸ fixes)
    rw [Registry.lookup?_insert, if_neg distinct, continues.lookup?_eq fixes]
  constructorsOf_eq _ fixes := continues.constructorsOf_eq fixes
  rules_le _ _ choice_eq := continues.rules_le choice_eq

/-- Constructors may be declared for a name which has not been fixed. -/
theorem declareConstructors (free : ¬before.Fixes resolve name)
    (constructors : List (Constructor Ty)) :
    before.Continues resolve { middle with registry := { middle.registry with
      own := { middle.registry.own with
        constructors := middle.registry.own.constructors.insert name constructors } } } where
  inherited_eq := continues.inherited_eq
  lookup?_eq _ fixes := continues.lookup?_eq fixes
  constructorsOf_eq other fixes := by
    have distinct : other ≠ name := fun same => free (same ▸ fixes)
    rw [Layer.constructorsOf_insert, if_neg distinct, continues.constructorsOf_eq fixes]
  rules_le _ _ choice_eq := continues.rules_le choice_eq

omit continues

theorem addRules (world : World) (name : String) (subject : Symbol) (rules : List Production) :
    world.Continues resolve { world with registry := world.registry.addRules name subject rules } where
  inherited_eq := rfl
  lookup?_eq _ _ := rfl
  constructorsOf_eq _ _ := rfl
  rules_le other choice choice_eq := by
    simp only [Registry.addRules, Definitions.addAlternatives, Table.get?_insert]
    split
    · next same =>
      subst same
      refine ⟨_, rfl, fun rule mem => OrderedSet.mem_insertAll.mpr (.inl ?_)⟩
      simpa [Definitions.entry, choice_eq] using mem
    · exact ⟨choice, choice_eq, fun _ => id⟩

end World.Continues

/-- Adding rules which are known already changes nothing. -/
theorem Registry.addRules_eq_self {registry : Registry} {name : String} {choice : Choice}
    {subject : Symbol} {rules : List Production} (choice_eq : registry.own.rules.get? name = some choice)
    (known : ∀ rule ∈ rules, rule ∈ choice.alternatives) :
    registry.addRules name subject rules = registry := by
  have alternatives_eq : choice.alternatives.insertAll rules = choice.alternatives :=
    OrderedSet.ext fun rule => by simpa using known rule
  have rules_eq : registry.own.rules.addAlternatives name subject rules = registry.own.rules := by
    refine Table.ext fun other => ?_
    simp only [Definitions.addAlternatives, Definitions.entry, choice_eq, Option.getD_some,
      alternatives_eq, Table.get?_insert]
    split
    · next same => rw [same, choice_eq]
    · rfl
  rw [addRules, rules_eq]

/-- Whether a type is a reference to a data type or an alias of a name. -/
def Ty.RefersTo (name : String) : Ty → Prop
  | .dataRef reference => reference.name = name
  | .aliasRef reference => reference.name = name
  | _ => False

theorem Ty.refersTo_iff {name : String} {type : Ty} :
    type.RefersTo name ↔ ∃ kind, type.kind? = some kind ∧ type.name? = some name := by
  cases type <;> simp [RefersTo, kind?, name?]

theorem Ty.RefersTo.name?_eq {name : String} {type : Ty} (refersTo : type.RefersTo name) :
    type.name? = some name := by
  obtain ⟨_, -, name_eq⟩ := refersTo_iff.mp refersTo
  exact name_eq

namespace Heap

variable {heap wider : Heap} {world : World} {resolve : Resolver}

/-- Whether everything which a world declares lies in a heap, and types are declared under their own
names. -/
structure Carries (heap : Heap) (world : World) : Prop where
  store_eq : heap.store = world.store
  holds : ∀ ⦃name type⦄, world.registry.lookup? name = some type → heap.Holds type
  refersTo : ∀ ⦃name type⦄, world.registry.lookup? name = some type → type.RefersTo name
  constructors : ∀ layer ∈ world.registry.layers, ∀ ⦃name constructor⦄,
    constructor ∈ layer.constructorsOf name → heap.Known (.constructor constructor)

namespace Carries

variable (carries : heap.Carries world)

include carries

/-- What is declared lies in every wider heap. -/
theorem mono (growsTo : heap.GrowsTo wider) :
    wider.Carries { world with store := wider.store } where
  store_eq := rfl
  holds _ _ lookup_eq := (carries.holds lookup_eq).mono growsTo
  refersTo _ _ lookup_eq := carries.refersTo lookup_eq
  constructors layer mem _ _ constructor_mem :=
    growsTo.known (carries.constructors layer mem constructor_mem)

theorem exists_makeData {parameters : List Ty} (hold : ∀ type ∈ parameters, heap.Holds type)
    (name : String) :
    ∃ wider : Heap, heap.GrowsTo wider ∧
      wider.Carries { world with store := (world.store.makeData name parameters).2 } ∧
      wider.Known (.dataRef (world.store.makeData name parameters).1) := by
  obtain ⟨wider, growsTo, store_eq, known⟩ := heap.exists_makeData hold name
  rw [carries.store_eq] at store_eq known
  exact ⟨wider, growsTo, store_eq ▸ carries.mono growsTo, known⟩

theorem exists_makeAlias {parameters : List Ty} (hold : ∀ type ∈ parameters, heap.Holds type)
    (name : String) :
    ∃ wider : Heap, heap.GrowsTo wider ∧
      wider.Carries { world with store := (world.store.makeAlias name parameters none).2 } ∧
      wider.Known (.aliasRef (world.store.makeAlias name parameters none).1) := by
  obtain ⟨wider, growsTo, store_eq, known⟩ := heap.exists_makeAlias hold name none nofun
  rw [carries.store_eq] at store_eq known
  exact ⟨wider, growsTo, store_eq ▸ carries.mono growsTo, known⟩

theorem exists_makeConstructor {owner : DataRef Ty} {fields : List (Field Ty)} (name : String)
    (owner_known : heap.Known (.dataRef owner)) (hold : ∀ field ∈ fields, heap.Holds field.type)
    (attributes : OrderedSet Attribute) :
    ∃ wider : Heap, heap.GrowsTo wider ∧
      wider.Carries { world with store := (world.store.makeConstructor owner name fields attributes).2 } ∧
      wider.Known (.constructor (world.store.makeConstructor owner name fields attributes).1) := by
  obtain ⟨wider, growsTo, store_eq, known⟩ :=
    heap.exists_makeConstructor name owner_known hold attributes
  rw [carries.store_eq] at store_eq known
  exact ⟨wider, growsTo, store_eq ▸ carries.mono growsTo, known⟩

/-- What is declared lies in a heap in which the same references exist. -/
theorem of_known_eq (known_eq : wider.Known = heap.Known) :
    wider.Carries { world with store := wider.store } where
  store_eq := rfl
  holds _ _ lookup_eq := by
    rw [Holds, known_eq]
    exact carries.holds lookup_eq
  refersTo _ _ lookup_eq := carries.refersTo lookup_eq
  constructors layer mem _ _ constructor_mem :=
    known_eq ▸ carries.constructors layer mem constructor_mem

theorem declare {name : String} {type : Ty} (holds : heap.Holds type)
    (refersTo : type.RefersTo name) :
    heap.Carries { world with registry := { world.registry with
      own := { world.registry.own with
        declarations := world.registry.own.declarations.insert name type } } } where
  store_eq := carries.store_eq
  holds other known lookup_eq := by
    rw [Registry.lookup?_insert] at lookup_eq
    split at lookup_eq
    · exact Option.some.inj lookup_eq ▸ holds
    · exact carries.holds lookup_eq
  refersTo other known lookup_eq := by
    rw [Registry.lookup?_insert] at lookup_eq
    split at lookup_eq
    · next same => exact same ▸ Option.some.inj lookup_eq ▸ refersTo
    · exact carries.refersTo lookup_eq
  constructors layer mem name constructor constructor_mem := by
    rcases List.mem_cons.mp mem with rfl | mem
    · exact carries.constructors world.registry.own (List.mem_cons_self ..) constructor_mem
    · exact carries.constructors layer (List.mem_cons_of_mem _ mem) constructor_mem

theorem declareConstructor {name : String} {constructor : Constructor Ty}
    (known : heap.Known (.constructor constructor)) :
    heap.Carries { world with registry := { world.registry with
      own := { world.registry.own with
        constructors := world.registry.own.constructors.insert name
          (world.registry.own.constructorsOf name ++ [constructor]) } } } where
  store_eq := carries.store_eq
  holds _ _ lookup_eq := carries.holds lookup_eq
  refersTo _ _ lookup_eq := carries.refersTo lookup_eq
  constructors layer mem other added constructor_mem := by
    rcases List.mem_cons.mp mem with rfl | mem
    · rcases Layer.mem_constructorsOf_append.mp constructor_mem with mem | ⟨-, rfl⟩
      · exact carries.constructors world.registry.own (List.mem_cons_self ..) mem
      · exact known
    · exact carries.constructors layer (List.mem_cons_of_mem _ mem) constructor_mem

theorem addRules (name : String) (subject : Symbol) (rules : List Production) :
    heap.Carries { world with registry := world.registry.addRules name subject rules } where
  store_eq := carries.store_eq
  holds _ _ lookup_eq := carries.holds lookup_eq
  refersTo _ _ lookup_eq := carries.refersTo lookup_eq
  constructors layer mem name constructor constructor_mem := by
    rcases List.mem_cons.mp mem with rfl | mem
    · exact carries.constructors world.registry.own (List.mem_cons_self ..) constructor_mem
    · exact carries.constructors layer (List.mem_cons_of_mem _ mem) constructor_mem

theorem known_of_mem_constructorsOf {name : String} {store : Store}
    {constructors : List (Constructor Ty)}
    (constructors_eq : world.registry.constructorsOf store name = some constructors) :
    ∀ constructor ∈ constructors, heap.Known (.constructor constructor) := fun _ mem => by
  obtain ⟨layer, layer_mem, mem⟩ := Registry.mem_constructorsOf constructors_eq mem
  exact carries.constructors layer layer_mem mem

end Carries

/-- Equal types refer to the same name. -/
theorem Alike.refersTo {name : String} {left right : Ty} (alike : heap.Alike left right)
    (refersTo : left.RefersTo name) : right.RefersTo name := by
  cases left with
  | dataRef =>
    obtain ⟨_, rfl, name_eq, -⟩ := alike.dataRef_inv
    exact name_eq.symm.trans refersTo
  | aliasRef =>
    obtain ⟨_, rfl, name_eq, -⟩ := alike.aliasRef_inv
    exact name_eq.symm.trans refersTo
  | _ => cases refersTo

theorem isKnown_eq {store : Store} (grows : heap.store.Grows store)
    {known : List (Constructor Ty)}
    (all_known : ∀ constructor ∈ known, heap.Known (.constructor constructor))
    {constructor : Constructor Ty} (constructor_known : heap.Known (.constructor constructor)) :
    Registry.isKnown store known constructor = Registry.isKnown heap.store known constructor := by
  induction known with
  | nil => rfl
  | cons first known ih =>
    obtain ⟨first_known, rest_known⟩ := List.forall_mem_cons.mp all_known
    have rest_eq : known.anyM (store.sameConstructor · constructor) =
        known.anyM (heap.store.sameConstructor · constructor) := ih rest_known
    simp only [Registry.isKnown, List.anyM_cons, sameConstructor_eq grows first_known
      constructor_known, rest_eq]

/-- Whether the constructors in all layers of a registry exist. -/
def Bears (heap : Heap) (registry : Registry) : Prop :=
  ∀ layer ∈ registry.layers, ∀ ⦃name constructor⦄, constructor ∈ layer.constructorsOf name →
    heap.Known (.constructor constructor)

theorem Carries.bears (carries : heap.Carries world) : heap.Bears world.registry :=
  carries.constructors

/-- The constructors of a data type stay as they are when references are made. -/
theorem Bears.constructorsOf_eq {registry : Registry} (bears : heap.Bears registry) {store : Store}
    (grows : heap.store.Grows store) (name : String) :
    registry.constructorsOf store name = registry.constructorsOf heap.store name := by
  have step {others known : List (Constructor Ty)}
      (known_known : ∀ constructor ∈ known, heap.Known (.constructor constructor))
      (others_known : ∀ constructor ∈ others, heap.Known (.constructor constructor)) :
      others.foldlM (Registry.addUnknown store) known =
        others.foldlM (Registry.addUnknown heap.store) known := by
    induction others generalizing known with
    | nil => rw [List.foldlM_nil, List.foldlM_nil]
    | cons first others ih =>
      obtain ⟨first_known, rest_known⟩ := List.forall_mem_cons.mp others_known
      have added_eq : Registry.addUnknown store known first =
          Registry.addUnknown heap.store known first := by
        rw [Registry.addUnknown, Registry.addUnknown, isKnown_eq grows known_known first_known]
      simp only [List.foldlM_cons, added_eq, Option.bind_eq_bind]
      refine Option.bind_congr fun added added_eq => ih (fun constructor mem => ?_) rest_known
      rcases List.mem_append.mp (Registry.subset_of_addUnknown added_eq mem) with mem | mem
      · exact known_known constructor mem
      · exact List.mem_singleton.mp mem ▸ first_known
  refine step (fun _ mem => bears _ (List.mem_cons_self ..) mem) fun _ mem => ?_
  obtain ⟨layer, layer_mem, mem⟩ := List.mem_flatMap.mp mem
  exact bears layer (List.mem_cons_of_mem _ layer_mem) mem

/-- The constructors of a name which is fixed stay as they are. -/
theorem Carries.constructorsOf_later (carries : heap.Carries world) (growsTo : heap.GrowsTo wider)
    {next : World} (continues : world.Continues resolve next) {name : String}
    (fixes : world.Fixes resolve name) : next.registry.constructorsOf wider.store name =
      world.registry.constructorsOf heap.store name := by
  rw [← carries.bears.constructorsOf_eq growsTo.grows, Registry.constructorsOf, Registry.constructorsOf,
    continues.inherited_eq, continues.constructorsOf_eq fixes]

end Heap

end Reification
