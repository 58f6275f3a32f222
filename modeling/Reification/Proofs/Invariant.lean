import Reification.Proofs.Idempotence

/-!
# Invariants of worlds

An invariant of worlds is maintained by a computation if it holds afterwards whenever it held before,
also if the computation fails.  A reconstruction maintains an invariant which the making of references
maintains if the expansions of undeclared names and the rules of nonterminals do.
-/

namespace Reification

open Reconstruct (Resolver)

namespace Building

variable {α β : Type} {invariant : World → Prop}

/-- Whether a computation, even if it fails, maintains an invariant of worlds. -/
def Maintains (invariant : World → Prop) (building : Building α) : Prop :=
  ∀ ⦃world⦄, invariant world → invariant (building.run.run world).2

theorem Maintains.bind {building : Building α} {next : α → Building β}
    (first : Maintains invariant building) (second : ∀ result, Maintains invariant (next result)) :
    Maintains invariant (building >>= next) := by
  intro world holds
  have middle := first holds
  rw [run_bind]
  rcases run_eq : building.run.run world with ⟨failure | result, after⟩
  · simpa only [run_eq] using middle
  · exact second result (by simpa only [run_eq] using middle)

/-- What a computation maintains holds after both of its outcomes. -/
theorem Maintains.meets {building : Building α} (maintains : Maintains invariant building)
    {world : World} (known : invariant world) :
    building.Meets world (fun _ after => invariant after) fun _ after => invariant after := by
  have after_known := maintains known
  unfold Meets
  split <;> simp_all

theorem maintains_pure (result : α) : Maintains invariant (pure result) := fun _ => id

/-- A computation may look at its world first. -/
theorem maintains_get_bind {next : World → Building α}
    (holds : ∀ ⦃world⦄, invariant world → invariant ((next world).run.run world).2) :
    Maintains invariant (get >>= next) :=
  fun _ known => holds known

theorem maintains_register {change : Registry → Store → Except Failure Registry}
    (changes : ∀ ⦃world registry⦄, invariant world →
      change world.registry world.store = .ok registry → invariant { world with registry }) :
    Maintains invariant (register change) := by
  intro world holds
  rw [run_register]
  split
  · next changed => exact changes holds changed
  · exact holds

/-- A computation goes on in the registry which its first step has changed, or it ends there. -/
theorem holds_of_register_bind {change : Registry → Store → Except Failure Registry}
    {next : Unit → Building α} {world : World} (failed : invariant world)
    (changed : ∀ registry, change world.registry world.store = .ok registry →
      invariant ((next ()).run.run { world with registry }).2) :
    invariant ((register change >>= next).run.run world).2 := by
  rw [run_bind, run_register]
  rcases change_eq : change world.registry world.store with failure | registry
  · exact failed
  · exact changed registry change_eq

variable (makes : ∀ ⦃world store⦄, world.store.Grows store → invariant world →
  invariant { world with store })

include makes

theorem maintains_make {making : Making α} (keeps : making.Keeps) :
    Maintains invariant (make making) := by
  intro world holds
  rw [run_make]
  split
  · next run_eq => exact makes (keeps run_eq) holds
  · exact holds

theorem closed_maintains : Closed fun {_} building => Maintains invariant building where
  pure := maintains_pure
  throw _ _ := id
  get _ := id
  make := maintains_make makes
  bind := Maintains.bind

end Building

namespace Reconstruct

open Building

variable {resolve : Resolver} {name : String} {invariant : World → Prop}

theorem bodyType_maintains {typeOf : Symbol → Building Ty}
    (types : ∀ symbol, Maintains invariant (typeOf symbol)) (alternatives : OrderedSet Production) :
    Maintains invariant (bodyType typeOf alternatives) := by
  unfold bodyType
  split
  · exact types _
  · exact maintains_pure _

variable (makes : ∀ ⦃world store⦄, world.store.Grows store → invariant world →
  invariant { world with store })

include makes

/-- All constructors which are declared belong to the same data type. -/
theorem declareConstructors_maintains {fieldsOf : List Symbol → Building (List (Field Ty))}
    (fields : ∀ symbols, Maintains invariant (fieldsOf symbols)) {owner : DataRef Ty}
    (declares : ∀ constructor : Constructor Ty, constructor.owner = owner →
      Maintains invariant (register (·.declareConstructor · constructor)))
    (productions : List Production) :
    Maintains invariant (declareConstructors fieldsOf owner productions) := by
  induction productions with
  | nil => exact maintains_pure ()
  | cons production productions ih =>
    unfold declareConstructors
    split
    · next name _ =>
      refine (fields _).bind fun types => ?_
      intro world holds
      rw [run_bind, run_make, Making.run_newConstructor]
      exact ((declares _ rfl).bind fun _ => ih)
        (makes (.makeConstructor owner name types production.attributes) holds)
    · exact ih

theorem namedWith_maintains {expand : String → Symbol → Building Ty}
    (expands : ∀ ⦃world name production⦄, invariant world → world.registry.lookup? name = none →
      (resolve name).first? = some production →
        invariant ((expand name production.subject).run.run world).2)
    (name : String) (actuals : List Ty) :
    Maintains invariant (namedWith resolve expand name actuals) := by
  intro world holds
  have applies (declared : Ty) : Maintains invariant (applied declared actuals) :=
    applied_closed (closed_maintains makes) declared actuals
  cases lookup_eq : world.registry.lookup? name with
  | some declared =>
    rw [run_namedWith_declared lookup_eq]
    exact applies declared holds
  | none =>
    cases first_eq : (resolve name).first? with
    | some production =>
      have expanded := expands holds lookup_eq first_eq
      rw [run_namedWith_expanded lookup_eq first_eq, run_bind]
      rcases run_eq : (expand name production.subject).run.run world with ⟨failure | type, after⟩
      · simpa only [run_eq] using expanded
      · exact applies type (by simpa only [run_eq] using expanded)
    | none =>
      rw [run_namedWith_unknown lookup_eq first_eq]
      exact (maintains_make makes (Making.keeps_newData name actuals)).bind
        (fun _ => maintains_pure _) holds

variable (sorts : ∀ name, Maintains invariant (sortWith resolve name)) {depth : Nat}
  (expands : ∀ ⦃world name production⦄, invariant world → world.registry.lookup? name = none →
    (resolve name).first? = some production →
      invariant ((expandWithin resolve depth name production.subject).run.run world).2)

include sorts expands

theorem typeWithin_maintains (symbol : Symbol) :
    Maintains invariant (typeWithin resolve depth symbol) :=
  typeWith_closed (closed_maintains makes)
    (fun name _ => namedWith_maintains makes expands name) fun name _ => sorts name

theorem typesWithin_maintains (symbols : List Symbol) :
    Maintains invariant (typesWithin resolve depth symbols) :=
  typesWith_closed (closed_maintains makes) fun symbol _ =>
    typeWithin_maintains makes sorts expands symbol

theorem fieldsWithin_maintains (symbols : List Symbol) :
    Maintains invariant (fieldsWithin resolve depth symbols) :=
  fieldsWith_closed (closed_maintains makes) fun symbol _ =>
    typeWithin_maintains makes sorts expands symbol

end Reconstruct

end Reification
