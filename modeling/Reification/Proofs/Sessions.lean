import Reification.Proofs.Building
import Reification.Proofs.Layers
import Reification.Proofs.Likeness

/-!
# Layered registries as one

A registry which inherits another one can be put over it at any time, and what follows is added to
the newest layer.  The layers together tell what a single registry tells to which everything is
added.  Checks and reads go through all layers, and constructors are compared with those of all
layers when they are declared; nothing else is needed, as long as constructors which have been told
apart do not become equal when the slots of aliases are filled.
-/

namespace Reification

namespace Session

/-- A step of a session in which a registry is added to. -/
inductive Step where
  | declare (name : String) (type : Ty)
  | declareConstructor (constructor : Constructor Ty)
  | addRules (name : String) (subject : Symbol) (rules : List Production)
  /-- A new registry is put over the current one. -/
  | inherit
  /-- References are made and slots are filled until the heap is as given. -/
  | pass (heap : Heap)

namespace Step

/-- Takes a step in the newest of several layers. -/
def layered : Step → Building Unit
  | declare name type => Building.register (·.declare · name type)
  | declareConstructor constructor => Building.register (·.declareConstructor · constructor)
  | addRules name subject rules =>
    Building.register fun registry _ => return registry.addRules name subject rules
  | inherit => Building.register fun registry _ => return registry.inheriting
  | pass heap => modify fun world => { world with store := heap.store }

/-- Takes a step in a single registry, over which no other one is put. -/
def flat : Step → Building Unit
  | inherit => return
  | step => step.layered

/-- The heap after a step. -/
def heapAfter (heap : Heap) : Step → Heap
  | pass later => later
  | _ => heap

/-- Whether a constructor which a step declares exists, and no reference vanishes in a step. -/
def Fits (heap : Heap) : Step → Prop
  | declareConstructor constructor => heap.Known (.constructor constructor)
  | pass later => ∀ ⦃reference⦄, heap.Known reference → later.Known reference
  | _ => True

/-- Whether the constructors of each name in a registry can be told apart when slots are filled. -/
def Settles (registry : Registry) : Step → Prop
  | pass later => ∀ constructors ∈ registry.own.constructors.values,
    constructors.Pairwise later.store.TellsApart
  | _ => True

instance (registry : Registry) : (step : Step) → Decidable (step.Settles registry)
  | pass later => inferInstanceAs (Decidable (∀ constructors ∈ registry.own.constructors.values,
      constructors.Pairwise later.store.TellsApart))
  | declare _ _ | declareConstructor _ | addRules _ _ _ | inherit => .isTrue trivial

end Step

/-- The answers to the steps of a session, which goes on after steps that fail. -/
def play (take : Step → Building Unit) (steps : List Step) :
    StateM World (List (Except Failure Unit)) :=
  steps.mapM fun step => (take step).run

/-- Whether the steps of a session fit the heap of their time. -/
def WellFormed : Heap → List Step → Prop
  | _, [] => True
  | heap, step :: steps => step.Fits heap ∧ WellFormed (step.heapAfter heap) steps

/-- Whether constructors which a single registry keeps as different are told apart from then on. -/
def Settled : World → List Step → Prop
  | _, [] => True
  | world, step :: steps =>
    step.Settles world.registry ∧ Settled (step.flat.run.run world).2 steps

instance decidableSettled : (world : World) → (steps : List Step) → Decidable (Settled world steps)
  | _, [] => .isTrue trivial
  | world, step :: steps =>
    have := decidableSettled (step.flat.run.run world).2 steps
    inferInstanceAs (Decidable (step.Settles world.registry ∧ _))

/-- Whether references are only made in a session, and no slot is filled. -/
def Growing : Heap → List Step → Prop
  | _, [] => True
  | heap, step :: steps =>
    heap.GrowsTo (step.heapAfter heap) ∧ Growing (step.heapAfter heap) steps

/-- Whether it does not show in a session that registries are put over others: all answers are the
same as for a single registry, and so is what the registry tells and what types are reified as. -/
def Seamless (heap : Heap) (steps : List Step) : Prop :=
  ∃ answers store layered flat,
    (play Step.layered steps).run { store := heap.store } =
      (answers, { store, registry := layered }) ∧
    (play Step.flat steps).run { store := heap.store } = (answers, { store, registry := flat }) ∧
    layered.Agrees store flat ∧
    ∀ grammar type, Reify.Context.Unambiguous ⟨store, layered, grammar⟩ type → ∀ reified,
      type.reify ⟨store, layered, grammar⟩ = .ok reified ↔
        type.reify ⟨store, flat, grammar⟩ = .ok reified

/-- Layers and a single registry with the same content, in which the constructors of each name can
be told apart. -/
structure Linked (heap : Heap) (layered flat : Registry) : Prop where
  inherited_eq : flat.inherited = []
  lookup?_eq : ∀ name, layered.lookup? name = flat.lookup? name
  rulesOf_eq : ∀ name, layered.rulesOf name = flat.rulesOf name
  perm : ∀ name,
    (layered.layers.flatMap (·.constructorsOf name)).Perm (flat.own.constructorsOf name)
  known : ∀ name, ∀ constructor ∈ flat.own.constructorsOf name,
    heap.Known (.constructor constructor)
  apart : ∀ name, (flat.own.constructorsOf name).Pairwise heap.store.TellsApart

/-- What becomes of linked registries: both are refused for the same cause, or they stay linked. -/
inductive Linked.Outcomes (heap : Heap) :
    Except Failure Registry → Except Failure Registry → Prop where
  | refused (failure : Failure) : Outcomes heap (.error failure) (.error failure)
  | taken {layered flat : Registry} (linked : Linked heap layered flat) :
    Outcomes heap (.ok layered) (.ok flat)

section Linked

variable {heap later : Heap} {layered flat : Registry} {name : String} {type : Ty}

theorem linked_fresh (heap : Heap) : Linked heap {} {} where
  inherited_eq := rfl
  lookup?_eq _ := rfl
  rulesOf_eq _ := rfl
  perm _ := .refl _
  known _ _ mem := absurd mem List.not_mem_nil
  apart _ := .nil

variable (linked : Linked heap layered flat)

include linked

theorem Linked.constructorsOf_layered (name : String) : layered.constructorsOf heap.store name =
    some (layered.layers.flatMap (·.constructorsOf name)) :=
  Registry.constructorsOf_of_pairwise
    (((linked.perm name).pairwise_iff .symm).mpr (linked.apart name))

theorem Linked.constructorsOf_flat (name : String) :
    flat.constructorsOf heap.store name = some (flat.own.constructorsOf name) :=
  Registry.constructorsOf_of_inherited_eq linked.inherited_eq heap.store name

theorem Linked.agrees : layered.Agrees heap.store flat where
  lookup?_eq := linked.lookup?_eq
  constructorsOf_perm name := ⟨_, _, linked.constructorsOf_layered name,
    linked.constructorsOf_flat name, linked.perm name⟩
  rulesOf_eq := linked.rulesOf_eq

/-- Time may pass if the constructors of each name can be told apart then. -/
theorem Linked.pass (fits : (Step.pass later).Fits heap)
    (settles : (Step.pass later).Settles flat) : Linked later layered flat :=
  { linked with
    known := fun name constructor mem => fits (linked.known name constructor mem)
    apart := fun name => by
      rw [Layer.constructorsOf]
      rcases get?_eq : flat.own.constructors.get? name with _ | constructors
      · exact .nil
      · exact settles constructors (Table.mem_values_iff.mpr ⟨name, get?_eq⟩) }

/-- A registry may be put over the others. -/
theorem Linked.inheriting : Linked heap layered.inheriting flat :=
  { linked with
    lookup?_eq := fun name => linked.lookup?_eq name
    rulesOf_eq := fun name => by
      rw [← linked.rulesOf_eq]
      refine OrderedSet.ext fun rule => ?_
      have not_mem : ¬rule ∈ ({} : Layer).rules.alternativesOf name := List.not_mem_nil
      have layers_eq : layered.inheriting.layers = {} :: layered.layers := rfl
      simp only [Registry.mem_rulesOf, layers_eq, List.mem_cons, exists_eq_or_imp, not_mem, false_or]
    perm := fun name => linked.perm name }

theorem Linked.addRules (subject : Symbol) (rules : List Production) :
    Linked heap (layered.addRules name subject rules) (flat.addRules name subject rules) :=
  { linked with
    lookup?_eq := fun other => linked.lookup?_eq other
    rulesOf_eq := fun other => OrderedSet.ext fun rule => by
      simp only [Registry.mem_rulesOf_addRules, linked.rulesOf_eq]
    perm := fun other => linked.perm other }

/-- A type is declared, or refused, in both alike. -/
theorem Linked.declare (name : String) (type : Ty) : Linked.Outcomes heap
    (layered.declare heap.store name type) (flat.declare heap.store name type) := by
  have lookup?_eq := linked.lookup?_eq name
  rcases flat_eq : flat.lookup? name with _ | existing
  · rw [flat_eq] at lookup?_eq
    rw [Registry.declare_of_undeclared lookup?_eq, Registry.declare_of_undeclared flat_eq]
    refine .taken { linked with
      lookup?_eq := fun other => ?_
      perm := fun other => linked.perm other }
    rw [Registry.lookup?_insert, Registry.lookup?_insert, linked.lookup?_eq]
  · rw [flat_eq] at lookup?_eq
    rw [Registry.declare_of_declared lookup?_eq, Registry.declare_of_declared flat_eq]
    rcases heap.store.same existing type with _ | _ | _
    · exact .refused _
    · exact .refused _
    · exact .taken linked

/-- A new constructor is added to the newest layer and to the single registry. -/
theorem Linked.addConstructor {constructor : Constructor Ty}
    (known : heap.Known (.constructor constructor))
    (unknown : Registry.isKnown heap.store (flat.own.constructorsOf name) constructor = some false) :
    Linked heap
      { layered with own := { layered.own with
          constructors := layered.own.constructors.insert name
            (layered.own.constructorsOf name ++ [constructor]) } }
      { flat with own := { flat.own with
          constructors := flat.own.constructors.insert name
            (flat.own.constructorsOf name ++ [constructor]) } } :=
  { linked with
    lookup?_eq := fun other => linked.lookup?_eq other
    rulesOf_eq := fun other => linked.rulesOf_eq other
    perm := fun other => by
      have perm := linked.perm other
      simp only [Registry.layers, List.flatMap_cons, Layer.constructorsOf_insert] at perm ⊢
      split
      · next same =>
        subst same
        have swapped (rest : List (Constructor Ty)) :
            ([constructor] ++ rest).Perm (rest ++ [constructor]) := List.perm_append_comm
        rw [List.append_assoc]
        refine ((swapped _).append_left _).trans ?_
        rw [← List.append_assoc]
        exact perm.append_right _
      · exact perm
    known := fun other => by
      rw [Layer.constructorsOf_insert]
      split
      · next same =>
        exact List.forall_mem_append.mpr
          ⟨linked.known name, List.forall_mem_singleton.mpr known⟩
      · exact linked.known other
    apart := fun other => by
      rw [Layer.constructorsOf_insert]
      split
      · exact List.pairwise_append.mpr ⟨linked.apart name, List.pairwise_singleton _ _,
          fun known mem added added_mem => by
            rw [List.mem_singleton.mp added_mem]
            exact Registry.isKnown_eq_false_iff.mp unknown known mem⟩
      · exact linked.apart other }

/-- A constructor is declared, or refused, in both alike. -/
theorem Linked.declareConstructor {constructor : Constructor Ty}
    (constructor_known : heap.Known (.constructor constructor)) : Linked.Outcomes heap
      (layered.declareConstructor heap.store constructor)
      (flat.declareConstructor heap.store constructor) := by
  have outcomes := linked.declare constructor.owner.name (.dataRef constructor.owner)
  rw [Registry.declareConstructor_eq, Registry.declareConstructor_eq]
  revert outcomes
  generalize layered.declare heap.store constructor.owner.name (.dataRef constructor.owner) = one
  generalize flat.declare heap.store constructor.owner.name (.dataRef constructor.owner) = other
  rintro (failure | linked)
  · exact .refused failure
  · next layered' flat' =>
    have known_eq := Heap.isKnown_congr (linked.perm constructor.owner.name).symm
      (linked.apart constructor.owner.name) (linked.known constructor.owner.name)
      constructor_known
    simp only [linked.constructorsOf_layered, linked.constructorsOf_flat, ← known_eq]
    rcases answer_eq : Registry.isKnown heap.store
      (flat'.own.constructorsOf constructor.owner.name) constructor with _ | _ | _
    · exact .refused _
    · exact .taken (linked.addConstructor constructor_known answer_eq)
    · exact .taken linked

/-- A change of both registries is answered alike. -/
theorem Linked.register (change : Registry → Store → Except Failure Registry)
    (outcomes : Linked.Outcomes heap (change layered heap.store) (change flat heap.store)) :
    ∃ answer layered' flat',
      (Building.register change).run.run { store := heap.store, registry := layered } =
        (answer, { store := heap.store, registry := layered' }) ∧
      (Building.register change).run.run { store := heap.store, registry := flat } =
        (answer, { store := heap.store, registry := flat' }) ∧ Linked heap layered' flat' := by
  simp only [Building.run_register]
  revert outcomes
  generalize change layered heap.store = one
  generalize change flat heap.store = other
  rintro (failure | linked')
  · exact ⟨_, _, _, rfl, rfl, linked⟩
  · exact ⟨_, _, _, rfl, rfl, linked'⟩

end Linked

section Run

variable {heap : Heap} {layered flat : Registry} {step : Step} {steps : List Step}

/-- A step is answered alike in both, and they stay linked. -/
theorem Linked.after_step (linked : Linked heap layered flat) (fits : step.Fits heap)
    (settles : step.Settles flat) : ∃ answer layered' flat',
      step.layered.run.run { store := heap.store, registry := layered } =
        (answer, { store := (step.heapAfter heap).store, registry := layered' }) ∧
      step.flat.run.run { store := heap.store, registry := flat } =
        (answer, { store := (step.heapAfter heap).store, registry := flat' }) ∧
      Linked (step.heapAfter heap) layered' flat' := by
  cases step with
  | declare name type => exact linked.register (·.declare · name type) (linked.declare name type)
  | declareConstructor constructor =>
    exact linked.register (·.declareConstructor · constructor) (linked.declareConstructor fits)
  | addRules name subject rules =>
    exact linked.register (fun registry _ => .ok (registry.addRules name subject rules))
      (.taken (linked.addRules subject rules))
  | inherit => exact ⟨_, _, _, rfl, rfl, linked.inheriting⟩
  | pass later => exact ⟨_, _, _, rfl, rfl, linked.pass fits settles⟩

theorem run_play_cons (take : Step → Building Unit) (world : World) :
    (play take (step :: steps)).run world =
      (((take step).run.run world).1 :: ((play take steps).run ((take step).run.run world).2).1,
        ((play take steps).run ((take step).run.run world).2).2) := by
  simp only [play, List.mapM_cons, StateT.run_bind]
  rfl

/-- A session is answered alike in both, and they stay linked. -/
theorem Linked.after_steps (linked : Linked heap layered flat) (wellFormed : WellFormed heap steps)
    (settled : Settled { store := heap.store, registry := flat } steps) :
    ∃ answers heap' layered' flat',
      (play Step.layered steps).run { store := heap.store, registry := layered } =
        (answers, { store := heap'.store, registry := layered' }) ∧
      (play Step.flat steps).run { store := heap.store, registry := flat } =
        (answers, { store := heap'.store, registry := flat' }) ∧
      Linked heap' layered' flat' := by
  induction steps generalizing heap layered flat with
  | nil => exact ⟨[], heap, layered, flat, rfl, rfl, linked⟩
  | cons step steps ih =>
    obtain ⟨fits, wellFormed⟩ := wellFormed
    obtain ⟨settles, settled⟩ := settled
    obtain ⟨answer, layered', flat', layered_eq, flat_eq, linked'⟩ := linked.after_step fits settles
    rw [flat_eq] at settled
    obtain ⟨answers, heap', last, flatLast, layered_play, flat_play, linked'⟩ :=
      ih linked' wellFormed settled
    refine ⟨answer :: answers, heap', last, flatLast, ?_, ?_, linked'⟩
    · rw [run_play_cons, layered_eq, layered_play]
    · rw [run_play_cons, flat_eq, flat_play]

/-- Constructors which are told apart stay so if no slot is filled. -/
theorem Linked.settles_of_growsTo (linked : Linked heap layered flat)
    (growsTo : heap.GrowsTo (step.heapAfter heap)) : step.Settles flat := by
  cases step with
  | pass later =>
    intro constructors mem
    obtain ⟨name, get?_eq⟩ := Table.mem_values_iff.mp mem
    obtain rfl : flat.own.constructorsOf name = constructors := by
      rw [Layer.constructorsOf, get?_eq, Option.getD_some]
    refine (linked.apart name).imp_of_mem fun left_mem right_mem apart => ?_
    exact (Heap.sameConstructor_eq growsTo.grows (linked.known name _ left_mem)
      (linked.known name _ right_mem)).trans apart
  | _ => trivial

theorem Linked.settled_of_growing (linked : Linked heap layered flat)
    (wellFormed : WellFormed heap steps) (growing : Growing heap steps) :
    Settled { store := heap.store, registry := flat } steps := by
  induction steps generalizing heap layered flat with
  | nil => trivial
  | cons step steps ih =>
    have settles := linked.settles_of_growsTo growing.1
    obtain ⟨_, _, flat', -, flat_eq, linked'⟩ := linked.after_step wellFormed.1 settles
    refine ⟨settles, ?_⟩
    rw [flat_eq]
    exact ih linked' wellFormed.2 growing.2

/-- A session is settled if no slot is filled in it. -/
theorem settled_of_growing (wellFormed : WellFormed heap steps) (growing : Growing heap steps) :
    Settled { store := heap.store } steps :=
  (linked_fresh heap).settled_of_growing wellFormed growing

end Run

/-! Expressions, whose declarations are spread over two layers.  What an identifier is is known only
when the second layer is added to. -/

namespace Language

/-- The alias whose body becomes known. -/
def identifier : AliasRef Ty := ⟨0, "Identifier", []⟩

/-- An alias of the same name whose body has always been known. -/
def known : AliasRef Ty := ⟨1, "Identifier", []⟩

def expression : DataRef Ty := ⟨0, "Expression", []⟩

def variable_ : Constructor Ty := ⟨1, expression, "variable", [⟨none, .aliasRef identifier⟩], ∅⟩

/-- An equal constructor. -/
def again : Constructor Ty :=
  ⟨2, expression, "variable", [⟨none, .aliasRef identifier⟩], .ofList [.tag "bracket"]⟩

/-- A constructor which becomes equal. -/
def other : Constructor Ty :=
  ⟨3, expression, "variable", [⟨none, .aliasRef known⟩], .ofList [.tag "bracket"]⟩

def call : Constructor Ty :=
  ⟨4, expression, "call", [⟨some "callee", .aliasRef identifier⟩,
    ⟨some "arguments", .list (.dataRef expression)⟩], ∅⟩

def references : List Ty :=
  [.aliasRef identifier, .aliasRef known, .dataRef expression, .constructor variable_,
    .constructor again, .constructor other, .constructor call]

/-- The heap before or after the slot of the alias is filled. -/
def heap (filled : Bool) : Heap :=
  .of ⟨5, #[if filled then some (.prim .str) else none, some (.prim .str)]⟩ references
    (by simp [references, Ty.isSameObject, identifier, known, expression, variable_, again, other,
      call])
    (by simp [references, Store.HasMade, identifier, known, expression, variable_, again, other,
      call])
    (by cases filled <;> simp [references, Ty.references, Ty.referencesOfAll,
      Ty.referencesOfFields, Store.behind, Store.body?, identifier, known, expression, variable_,
      again, other, call])

def layout (symbols : List Symbol) : Production where
  subject := .sort "Layout"
  symbols := symbols

def steps : List Step := [
  .declare "Identifier" (.aliasRef identifier),
  .declareConstructor variable_,
  .addRules "Layout" (.sort "Layout") [layout []],
  .inherit,
  .pass (heap true),
  .declareConstructor again,
  .declareConstructor call,
  .declare "Identifier" (.prim .str),
  .addRules "Layout" (.sort "Layout") [layout [.sort "Comment", .sort "Layout"]]]

theorem wellFormed : WellFormed (heap false) steps := by
  simp [WellFormed, steps, Step.Fits, Step.heapAfter, heap, Heap.of, references]

theorem settled : Settled { store := (heap false).store } steps := by decide

/-- Only the second declaration of the alias is refused. -/
example : ((play Step.layered steps).run { store := (heap false).store }).1.map (·.toBool) =
    [true, true, true, true, true, true, true, false, true] := by decide

/-- Two constructors which are declared while they differ. -/
def merging : List Step :=
  [.declareConstructor variable_, .inherit, .declareConstructor other, .pass (heap true)]

/-- The number of constructors of expressions. -/
def count (world : World) : Option Nat :=
  (world.registry.constructorsOf world.store "Expression").map List.length

end Language

end Session

end Reification
