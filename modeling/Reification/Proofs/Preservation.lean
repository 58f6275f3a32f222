import Reification.Proofs.Invariant

/-!
# What a reconstruction leaves alone

A reconstruction declares only names which are not declared and have alternatives, and it fills only
the slots of aliases which it has made itself.  Nothing is rolled back if it fails, so this is shown
of every step, whether or not the computation goes on after it.
-/

namespace Reification

open Reconstruct (Resolver)

/-- A world which has gone on and in which every slot is as it was. -/
structure World.Preserves (resolve : Resolver) (before after : World) : Prop
    extends before.Continues resolve after where
  grows : before.store.Grows after.store

theorem Heap.bears_iff {heap : Heap} {registry : Registry} : heap.Bears registry ↔
    ∀ layer ∈ registry.layers, ∀ constructors ∈ layer.constructors.values,
      ∀ constructor ∈ constructors, heap.Known (.constructor constructor) := by
  refine forall₂_congr fun layer _ => ⟨fun known constructors mem constructor constructor_mem => ?_,
    fun known name constructor constructor_mem => ?_⟩
  · obtain ⟨name, get?_eq⟩ := Table.mem_values_iff.mp mem
    refine @known name constructor ?_
    rwa [Layer.constructorsOf, get?_eq]
  · rcases get?_eq : layer.constructors.get? name with _ | constructors
    · rw [Layer.constructorsOf, get?_eq] at constructor_mem
      cases constructor_mem
    · rw [Layer.constructorsOf, get?_eq] at constructor_mem
      exact known constructors (Table.mem_values_iff.mpr ⟨name, get?_eq⟩) constructor constructor_mem

namespace World

variable {resolve : Resolver} {before middle after : World} {name : String}

theorem Continues.rulesOf_le (continues : before.Continues resolve after) {rule : Production}
    (mem : rule ∈ before.registry.rulesOf name) : rule ∈ after.registry.rulesOf name := by
  obtain ⟨layer, layer_mem, mem⟩ := Registry.mem_rulesOf.mp mem
  refine Registry.mem_rulesOf.mpr ?_
  rcases List.mem_cons.mp layer_mem with rfl | inherited
  · refine ⟨after.registry.own, List.mem_cons_self .., ?_⟩
    rcases choice_eq : before.registry.own.rules.get? name with _ | choice
    · rw [Definitions.alternativesOf, choice_eq] at mem
      cases mem
    · obtain ⟨wider, wider_eq, le⟩ := continues.rules_le choice_eq
      rw [Definitions.alternativesOf, choice_eq] at mem
      rw [Definitions.alternativesOf, wider_eq]
      exact le rule mem
  · exact ⟨layer, List.mem_cons_of_mem _ (continues.inherited_eq ▸ inherited), mem⟩

namespace Preserves

theorem refl (world : World) : world.Preserves resolve world := ⟨.refl world, .refl _⟩

variable (preserves : before.Preserves resolve middle)

include preserves

theorem of_store {store : Store} (grows : before.store.Grows store) :
    before.Preserves resolve { middle with store } :=
  ⟨preserves.toContinues.of_store store, grows⟩

/-- A name which is not declared and has alternatives was not fixed. -/
theorem not_fixes (undeclared : middle.registry.lookup? name = none) {production : Production}
    (first_eq : (resolve name).first? = some production) : ¬before.Fixes resolve name := by
  rintro (declared | no_alternative)
  · exact declared ((preserves.lookup?_eq (.inl declared)).symm.trans undeclared)
  · simp [first_eq] at no_alternative

end Preserves

end World

namespace Reconstruct

open Building

variable {resolve : Resolver} {before : World} {name : String}

theorem makes_preserves ⦃world : World⦄ ⦃store : Store⦄ (grows : world.store.Grows store)
    (preserves : before.Preserves resolve world) : before.Preserves resolve { world with store } :=
  preserves.of_store (preserves.grows.trans grows)

theorem sortWith_preserves (name : String) :
    Maintains (before.Preserves resolve) (sortWith resolve name) := by
  unfold sortWith
  split
  · refine maintains_register fun world registry preserves changed => ?_
    obtain rfl := Except.ok.inj changed
    exact ⟨preserves.toContinues.trans (.addRules world _ _ _), preserves.grows⟩
  · exact maintains_pure ()

section Free

variable (free : ¬before.Fixes resolve name)

include free

/-- Declaring a name which was not fixed leaves alone what was. -/
theorem declare_preserves {world : World} (preserves : before.Preserves resolve world) {type : Ty}
    {registry : Registry} (declare_eq : world.registry.declare world.store name type = .ok registry) :
    before.Preserves resolve { world with registry } := by
  obtain ⟨-, rfl⟩ | ⟨-, rfl⟩ := Registry.declare_inv declare_eq
  · exact ⟨preserves.toContinues.declare free type, preserves.grows⟩
  · exact preserves

theorem declareConstructor_preserves {constructor : Constructor Ty}
    (name_eq : constructor.owner.name = name) :
    Maintains (before.Preserves resolve)
      (register (·.declareConstructor · constructor)) := by
  subst name_eq
  refine maintains_register fun world registry preserves declare_eq => ?_
  obtain ⟨declared, _, owner_eq, -, declared_eq⟩ := Registry.declareConstructor_inv declare_eq
  have preserves := declare_preserves free preserves owner_eq
  obtain ⟨-, rfl⟩ | ⟨-, rfl⟩ := declared_eq
  · exact preserves
  · exact ⟨preserves.toContinues.declareConstructors free _, preserves.grows⟩

theorem declareData_preserves {fieldsOf : List Symbol → Building (List (Field Ty))}
    (fields : ∀ symbols, Maintains (before.Preserves resolve) (fieldsOf symbols))
    (formals : List Ty) (alternatives : OrderedSet Production) :
    Maintains (before.Preserves resolve) (declareData fieldsOf name formals alternatives) := by
  intro world preserves
  rw [declareData, run_bind, run_make, Making.run_newData]
  refine ((maintains_register fun _ _ preserves declare_eq =>
    declare_preserves free preserves declare_eq).bind fun _ =>
      (declareConstructors_maintains makes_preserves fields (fun constructor owner_eq => ?_) _).bind
        fun _ => maintains_pure _) (makes_preserves (.makeData name formals) preserves)
  exact declareConstructor_preserves free (congrArg DataRef.name owner_eq)

/-- Filling the slot of an alias which was made meanwhile leaves the others alone. -/
theorem declareAlias_preserves {typeOf : Symbol → Building Ty}
    (types : ∀ symbol, Maintains (before.Preserves resolve) (typeOf symbol))
    (formals : List Ty) (alternatives : OrderedSet Production) :
    Maintains (before.Preserves resolve) (declareAlias typeOf name formals alternatives) := by
  intro world preserves
  have fills (body : Ty) : Maintains (before.Preserves resolve) (fillSlot name
      (world.store.makeAlias name formals none).1 body) := by
    refine maintains_get_bind fun opened opened_preserves => ?_
    split
    · next fill_eq =>
      exact opened_preserves.of_store
        (opened_preserves.grows.fill? preserves.grows.size_le fill_eq)
    · exact opened_preserves
  rw [declareAlias_eq, run_bind, run_make, Making.run_newAlias]
  exact ((maintains_register fun _ _ preserves declare_eq =>
    declare_preserves free preserves declare_eq).bind fun _ =>
      (bodyType_maintains types _).bind fun body => (fills body).bind fun _ => maintains_pure _)
    (makes_preserves (.makeAlias name formals none) preserves)

end Free

theorem expandWithin_preserves (depth : Nat) {production : Production}
    (free : ¬before.Fixes resolve name) (first_eq : (resolve name).first? = some production) :
    Maintains (before.Preserves resolve) (expandWithin resolve depth name production.subject) := by
  induction depth generalizing name production with
  | zero => exact fun _ => id
  | succ depth ih =>
    have expands ⦃world : World⦄ ⦃name : String⦄ ⦃production : Production⦄
        (preserves : before.Preserves resolve world)
        (undeclared : world.registry.lookup? name = none)
        (first_eq : (resolve name).first? = some production) : before.Preserves resolve
          ((expandWithin resolve depth name production.subject).run.run world).2 :=
      ih (preserves.not_fixes undeclared first_eq) first_eq preserves
    rw [expandWithin_eq first_eq]
    refine (typesWithin_maintains makes_preserves sortWith_preserves expands _).bind fun formals => ?_
    unfold declareFor
    split
    · exact declareAlias_preserves free
        (typeWithin_maintains makes_preserves sortWith_preserves expands) formals _
    · exact declareData_preserves free
        (fieldsWithin_maintains makes_preserves sortWith_preserves expands) formals _

theorem typeWithin_preserves (depth : Nat) (symbol : Symbol) :
    Maintains (before.Preserves resolve) (typeWithin resolve depth symbol) :=
  typeWithin_maintains makes_preserves sortWith_preserves
    (fun _ _ _ preserves undeclared first_eq => expandWithin_preserves depth
      (preserves.not_fixes undeclared first_eq) first_eq preserves) symbol

/-- Whether or not a reconstruction succeeds, all names which were declared before keep their
declarations and constructors, the slots of aliases and the inherited layers stay as they were, rules
are only added, and no name without alternatives is declared. -/
theorem typeWithin_only_adds {heap : Heap} {world : World} (store_eq : heap.store = world.store)
    (bears : heap.Bears world.registry) (resolve : Resolver) (depth : Nat) (symbol : Symbol) :
    let after := ((typeWithin resolve depth symbol).run.run world).2
    (∀ name type, world.registry.lookup? name = some type →
      after.registry.lookup? name = some type ∧
        after.registry.constructorsOf after.store name =
          world.registry.constructorsOf world.store name) ∧
      (∀ slot < world.store.slots.size, after.store.slots[slot]? = world.store.slots[slot]?) ∧
      after.registry.inherited = world.registry.inherited ∧
      (∀ name, ∀ rule ∈ world.registry.rulesOf name, rule ∈ after.registry.rulesOf name) ∧
      ∀ name, resolve name = ∅ →
        after.registry.lookup? name = world.registry.lookup? name := by
  intro after
  have preserves : world.Preserves resolve after := typeWithin_preserves depth symbol (.refl world)
  refine ⟨fun name type lookup_eq => ?_, preserves.grows.slot_eq, preserves.inherited_eq,
    fun name rule => preserves.rulesOf_le, fun name empty => preserves.lookup?_eq (.inr ?_)⟩
  · have fixes : world.Fixes resolve name := .inl (by simp [lookup_eq])
    have grows : heap.store.Grows after.store := store_eq ▸ preserves.grows
    refine ⟨(preserves.lookup?_eq fixes).trans lookup_eq, ?_⟩
    calc after.registry.constructorsOf after.store name
        = world.registry.constructorsOf after.store name := by
          rw [Registry.constructorsOf, Registry.constructorsOf, preserves.inherited_eq,
            preserves.constructorsOf_eq fixes]
      _ = world.registry.constructorsOf world.store name := by
          rw [bears.constructorsOf_eq grows, store_eq]
  · rw [empty]
    rfl

/-! Items which two layers declare, and a reconstruction which contradicts them and then fails. -/

namespace Warehouse

/-- An alias whose body is known. -/
def label : AliasRef Ty := ⟨0, "Label", []⟩

/-- An alias whose body is not known yet. -/
def shelf : AliasRef Ty := ⟨1, "Shelf", []⟩

def item : DataRef Ty := ⟨0, "Item", []⟩

def single : Constructor Ty := ⟨1, item, "single", [⟨none, .aliasRef label⟩], ∅⟩

def crate : Constructor Ty :=
  ⟨2, item, "crate", [⟨some "items", .list (.dataRef item)⟩, ⟨none, .aliasRef shelf⟩], ∅⟩

def references : List Ty :=
  [.aliasRef label, .aliasRef shelf, .dataRef item, .constructor single, .constructor crate]

def heap : Heap :=
  .of ⟨3, #[some (.prim .str), none]⟩ references
    (by simp [references, Ty.isSameObject, label, shelf, item, single, crate])
    (by simp [references, Store.HasMade, label, shelf, item, single, crate])
    (by simp [references, Ty.references, Ty.referencesOfAll, Ty.referencesOfFields, Store.behind,
      Store.body?, label, shelf, item, single, crate])

def world : World where
  store := heap.store
  registry := {
    own := {
      declarations := ⟨[("Shelf", .aliasRef shelf)], by decide⟩
      constructors := ⟨[("Item", [crate])], by decide⟩ }
    inherited := [{
      declarations := ⟨[("Item", .dataRef item), ("Label", .aliasRef label)], by decide⟩
      constructors := ⟨[("Item", [single])], by decide⟩ }] }

theorem bears : heap.Bears world.registry := by
  refine Heap.bears_iff.mpr ?_
  simp [world, Registry.layers, Table.values, heap, Heap.of, references]

/-- The items which the definitions describe differ from those which are declared, and the formal
parameter of an order leads back to it. -/
def definitions : Definitions where
  entries := [
    ("Customer", {
      subject := .dataRef "Customer" []
      alternatives := .ofList [{
        subject := .dataRef "Customer" []
        name := some "customer"
        symbols := [.aliasRef "Order" []] }] }),
    ("Item", {
      subject := .dataRef "Item" [.parameter "T" (.prim .value)]
      alternatives := .ofList [{
        subject := .dataRef "Item" [.parameter "T" (.prim .value)]
        name := some "pallet"
        symbols := [.parameter "T" (.prim .value)] }] }),
    ("Line", {
      subject := .sort "Line"
      alternatives := .ofList [{ subject := .sort "Line", symbols := [.dataRef "Item" []] }] }),
    ("Order", {
      subject := .aliasRef "Order" []
      alternatives := .ofList [{
        subject := .aliasRef "Order" [.parameter "T" (.dataRef "Customer" [])]
        symbols := [.list (.dataRef "Item" [])] }] })]
  increasing := by decide

def symbol : Symbol :=
  .tuple [.dataRef "Item" [], .aliasRef "Shelf" [], .sort "Line", .aliasRef "Order" []]

theorem reconstruct_fails :
    ((Reified.reconstruct ⟨symbol, definitions⟩).run.run world).1.toBool = false ∧
      ((Reified.reconstruct ⟨symbol, definitions⟩).run.run world).2.registry.isDeclared "Order" =
        true := by
  decide

theorem item_after_failure : heap.store = world.store ∧ heap.Bears world.registry ∧
    ∃ failure after, (Reified.reconstruct ⟨symbol, definitions⟩).run.run world =
        (.error failure, after) ∧
      after.registry.isDeclared "Order" = true ∧
      after.registry.lookup? "Item" = some (.dataRef item) ∧
      after.registry.constructorsOf after.store "Item" = some [crate, single] := by
  obtain ⟨known, -⟩ := typeWithin_only_adds (rfl : heap.store = world.store) bears
    definitions.alternativesOf (maxDepth definitions) symbol
  obtain ⟨lookup_eq, constructors_eq⟩ := known "Item" (.dataRef item) rfl
  obtain ⟨fails, order⟩ := reconstruct_fails
  rcases run_eq : (Reified.reconstruct ⟨symbol, definitions⟩).run.run world with
    ⟨failure | type, after⟩
  · simp only [Reified.reconstruct, typeOf] at run_eq
    simp only [Reified.reconstruct, typeOf, run_eq] at order lookup_eq constructors_eq
    exact ⟨rfl, bears, failure, after, rfl, order, lookup_eq, constructors_eq⟩
  · rw [run_eq] at fails
    cases fails

end Warehouse

end Reconstruct

end Reification
