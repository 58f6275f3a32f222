import Reification.Reconstruct

/-!
# Outcomes of computations which build types

A computation which makes and declares types ends in a world, with a result or with a failure.  The
rules of this module reduce a claim about both outcomes to claims about the steps.
-/

namespace Reification

/-- After a step the rest of a computation goes on in the state which the step leaves. -/
theorem Failure.run_bind {σ α β : Type} (first : ExceptT Failure (StateM σ) α)
    (next : α → ExceptT Failure (StateM σ) β) (state : σ) :
    (first >>= next).run.run state = match first.run.run state with
      | (.ok result, after) => (next result).run.run after
      | (.error failure, after) => (.error failure, after) := by
  rw [ExceptT.run_bind, StateT.run_bind]
  change (match first.run.run state with | (outcome, after) => _) = _
  rcases first.run.run state with ⟨_ | _, _⟩ <;> rfl

namespace Building

variable {α β : Type} {world : World} {ok ok' : α → World → Prop}
  {failed failed' : Failure → World → Prop}

/-- The outcome of a computation in a world is as stated: `ok` holds of its result, or `failed` of
the cause for which it has none. -/
def Meets (building : Building α) (world : World) (ok : α → World → Prop)
    (failed : Failure → World → Prop) : Prop :=
  match building.run.run world with
  | (.ok result, after) => ok result after
  | (.error failure, after) => failed failure after

theorem meets_iff_of_run_eq_ok {building : Building α} {result : α} {after : World}
    (run_eq : building.run.run world = (.ok result, after)) :
    building.Meets world ok failed ↔ ok result after := by
  simp only [Meets, run_eq]

theorem meets_iff_of_run_eq_error {building : Building α} {failure : Failure} {after : World}
    (run_eq : building.run.run world = (.error failure, after)) :
    building.Meets world ok failed ↔ failed failure after := by
  simp only [Meets, run_eq]

instance {building : Building α} [∀ result after, Decidable (ok result after)]
    [∀ failure after, Decidable (failed failure after)] :
    Decidable (building.Meets world ok failed) :=
  match run_eq : building.run.run world with
  | (.ok result, after) =>
    decidable_of_iff (ok result after) (meets_iff_of_run_eq_ok run_eq).symm
  | (.error failure, after) =>
    decidable_of_iff (failed failure after) (meets_iff_of_run_eq_error run_eq).symm

/-- A weaker claim follows from a stronger one. -/
theorem Meets.mono {building : Building α} (meets : building.Meets world ok failed)
    (ok_le : ∀ result after, ok result after → ok' result after)
    (failed_le : ∀ failure after, failed failure after → failed' failure after) :
    building.Meets world ok' failed' := by
  unfold Meets at meets ⊢
  split
  · next run_eq =>
    rw [run_eq] at meets
    exact ok_le _ _ meets
  · next run_eq =>
    rw [run_eq] at meets
    exact failed_le _ _ meets

/-- Both of two claims about the outcome of a computation hold. -/
theorem Meets.and {building : Building α} (first : building.Meets world ok failed)
    (second : building.Meets world ok' failed') :
    building.Meets world (fun result after => ok result after ∧ ok' result after)
      fun failure after => failed failure after ∧ failed' failure after := by
  unfold Meets at first second ⊢
  split
  · next run_eq =>
    rw [run_eq] at first second
    exact ⟨first, second⟩
  · next run_eq =>
    rw [run_eq] at first second
    exact ⟨first, second⟩

/-- What holds after both outcomes of a computation holds. -/
theorem Meets.elim {building : Building α} {claim : Prop}
    (meets : building.Meets world ok failed)
    (ok_le : ∀ result after, ok result after → claim)
    (failed_le : ∀ failure after, failed failure after → claim) : claim := by
  unfold Meets at meets
  split at meets
  · exact ok_le _ _ meets
  · exact failed_le _ _ meets

@[simp]
theorem meets_pure {result : α} :
    (pure result : Building α).Meets world ok failed ↔ ok result world := Iff.rfl

@[simp]
theorem meets_throw {failure : Failure} :
    (throw failure : Building α).Meets world ok failed ↔ failed failure world := Iff.rfl

@[simp]
theorem meets_get {ok : World → World → Prop} :
    (get : Building World).Meets world ok failed ↔ ok world world := Iff.rfl

@[simp]
theorem meets_set {after : World} {ok : PUnit → World → Prop} :
    (set after : Building PUnit).Meets world ok failed ↔ ok ⟨⟩ after := Iff.rfl

/-- After a step the rest of a computation goes on in the world which the step leaves. -/
theorem run_bind (building : Building α) (next : α → Building β) (world : World) :
    (building >>= next).run.run world = match building.run.run world with
      | (.ok result, after) => (next result).run.run after
      | (.error failure, after) => (.error failure, after) := by
  rw [Failure.run_bind]
  rcases building.run.run world with ⟨_ | _, _⟩ <;> rfl

/-- A sequence of computations ends only if both of them do. -/
theorem exists_of_run_bind {building : Building α} {next : α → Building β} {result : β}
    {last : World} (run_eq : (building >>= next).run.run world = (.ok result, last)) :
    ∃ middle after, building.run.run world = (.ok middle, after) ∧
      (next middle).run.run after = (.ok result, last) := by
  rw [run_bind] at run_eq
  rcases first_eq : building.run.run world with ⟨_ | middle, after⟩ <;> rw [first_eq] at run_eq
  · cases run_eq
  · exact ⟨middle, after, rfl, run_eq⟩

theorem run_make (making : Making α) : (make making).run.run world =
    match making.run world.store with
    | some (result, store) => (.ok result, { world with store })
    | none => (.error .endless, world) := by
  rw [make, run_bind]
  change (match making.run world.store with
    | some (result, store) => do
      set { world with store }
      return result
    | none => throw .endless : Building α).run.run world = _
  split <;> rfl

theorem run_ask (question : Registry → Store → Option α) : (ask question).run.run world =
    match question world.registry world.store with
    | some result => (.ok result, world)
    | none => (.error .endless, world) := by
  rw [ask, run_bind]
  change (Failure.orEndless (question world.registry world.store) : Building α).run.run world = _
  rcases question world.registry world.store with _ | result <;> rfl

theorem run_register (change : Registry → Store → Except Failure Registry) :
    (register change).run.run world = match change world.registry world.store with
      | .ok registry => (.ok (), { world with registry })
      | .error failure => (.error failure, world) := by
  rw [register, run_bind]
  change ((change world.registry world.store : Building Registry) >>= _).run.run world = _
  rw [run_bind]
  rcases change world.registry world.store with _ | _ <;> rfl

@[simp]
theorem meets_bind {building : Building α} {next : α → Building β} {ok : β → World → Prop} :
    (building >>= next).Meets world ok failed ↔
      building.Meets world (fun result after => (next result).Meets after ok failed) failed := by
  unfold Meets
  rw [run_bind]
  rcases building.run.run world with ⟨_ | _, _⟩ <;> rfl

@[simp]
theorem meets_map {building : Building α} {change : α → β} {ok : β → World → Prop} :
    (change <$> building).Meets world ok failed ↔
      building.Meets world (fun result after => ok (change result) after) failed := by
  rw [map_eq_pure_bind, meets_bind]
  rfl

@[simp]
theorem meets_discard {building : Building α} {ok : PUnit → World → Prop} :
    (discard building).Meets world ok failed ↔
      building.Meets world (fun _ after => ok ⟨⟩ after) failed := by
  rw [discard, Functor.mapConst]
  exact meets_map

/-- Making references changes nothing but the store. -/
theorem meets_make {making : Making α} :
    (make making).Meets world ok failed ↔ match making.run world.store with
      | some (result, store) => ok result { world with store }
      | none => failed .endless world := by
  simp only [make, meets_bind, meets_get]
  rcases making.run world.store with _ | _ <;> rfl

/-- Changing the registry leaves the store alone. -/
theorem meets_register {change : Registry → Store → Except Failure Registry}
    {ok : Unit → World → Prop} :
    (register change).Meets world ok failed ↔ match change world.registry world.store with
      | .ok registry => ok () { world with registry }
      | .error failure => failed failure world := by
  simp only [register, meets_bind, meets_get]
  rcases change world.registry world.store with _ | _ <;> rfl

/-- Asking changes nothing. -/
theorem meets_ask {question : Registry → Store → Option α} :
    (ask question).Meets world ok failed ↔ match question world.registry world.store with
      | some result => ok result world
      | none => failed .endless world := by
  simp only [ask, meets_bind, meets_get]
  rcases question world.registry world.store with _ | _ <;> rfl

/-- What is known of all outcomes of a step may be used for the rest of a computation. -/
theorem Meets.bind {building : Building α} {next : α → Building β} {ok' : β → World → Prop}
    (first : building.Meets world ok failed)
    (second : ∀ result after, ok result after → (next result).Meets after ok' failed')
    (failed_le : ∀ failure after, failed failure after → failed' failure after) :
    (building >>= next).Meets world ok' failed' :=
  meets_bind.mpr (first.mono second failed_le)

/-- The rest of a computation may use how the run of its first step has ended. -/
theorem meets_bind_of_runs {building : Building α} {next : α → Building β} {ok : β → World → Prop}
    (second : ∀ result after, building.run.run world = (.ok result, after) →
      (next result).Meets after ok failed)
    (fails : ∀ failure after, building.run.run world = (.error failure, after) →
      failed failure after) : (building >>= next).Meets world ok failed := by
  refine meets_bind.mpr ?_
  rcases run_eq : building.run.run world with ⟨failure | result, after⟩
  · exact (meets_iff_of_run_eq_error run_eq).mpr (fails failure after run_eq)
  · exact (meets_iff_of_run_eq_ok run_eq).mpr (second result after run_eq)

section Yields

variable {invariant : World → Prop} {post : α → Prop}

/-- A computation which ends keeps an invariant of worlds, with a result as stated. -/
def Yields (invariant : World → Prop) (building : Building α) (post : α → Prop) : Prop :=
  ∀ ⦃world⦄, invariant world → building.Meets world
    (fun result after => invariant after ∧ post result) fun _ _ => True

theorem yields_pure {result : α} (holds : post result) :
    Yields invariant (pure result) post := fun _ known => ⟨known, holds⟩

theorem Yields.bind {building : Building α} {next : α → Building β} {post' : β → Prop}
    (first : Yields invariant building post)
    (second : ∀ result, post result → Yields invariant (next result) post') :
    Yields invariant (building >>= next) post' := fun _ known =>
  (first known).bind (fun result _ ⟨known, holds⟩ => second result holds known) fun _ _ => id

theorem Yields.mono {building : Building α} {post' : α → Prop}
    (yields : Yields invariant building post) (le : ∀ result, post result → post' result) :
    Yields invariant building post' := fun _ known =>
  (yields known).mono (fun _ _ => And.imp_right (le _)) fun _ _ => id

/-- A computation may look at its world first. -/
theorem yields_get_bind {next : World → Building α}
    (yields : ∀ world, invariant world → Yields invariant (next world) post) :
    Yields invariant (get >>= next) post := fun world known => yields world known known

theorem yields_ask {question : Registry → Store → Option α} :
    Yields invariant (ask question) fun result =>
      ∃ world, invariant world ∧ question world.registry world.store = some result := by
  refine fun world known => meets_ask.mpr ?_
  split
  · next found => exact ⟨known, world, known, found⟩
  · trivial

theorem yields_register {change : Registry → Store → Except Failure Registry}
    (changes : ∀ ⦃world registry⦄, invariant world →
      change world.registry world.store = .ok registry → invariant { world with registry }) :
    Yields invariant (register change) fun _ => True := by
  refine fun world known => meets_register.mpr ?_
  split
  · next changed => exact ⟨changes known changed, trivial⟩
  · trivial

end Yields

end Building

namespace Reconstruct

/-- The types of some symbols with at most `depth` expansions nested. -/
def typesWithin (resolve : Resolver) (depth : Nat) (symbols : List Symbol) : Building (List Ty) :=
  typesWith (namedWith resolve (expandWithin resolve depth)) (sortWith resolve) symbols

/-- The fields of some symbols with at most `depth` expansions nested. -/
def fieldsWithin (resolve : Resolver) (depth : Nat) (symbols : List Symbol) :
    Building (List (Field Ty)) :=
  fieldsWith (namedWith resolve (expandWithin resolve depth)) (sortWith resolve) symbols

/-- The type of the body of an alias. -/
def bodyType (typeOf : Symbol → Building Ty) (alternatives : OrderedSet Production) :
    Building Ty :=
  match bodySymbol? alternatives with
  | some symbol => typeOf symbol
  | none => pure (.prim .value)

/-- Fills the slot of an alias which is declared under a name. -/
def fillSlot (name : String) (declared : AliasRef Ty) (body : Ty) : Building Unit := do
  let world ← get
  match world.store.fill? declared body with
  | some store => set { world with store }
  | none => throw (.error (.fault (.filledTwice name)))

/-- An alias is made, declared and only then filled. -/
theorem declareAlias_eq (typeOf : Symbol → Building Ty) (name : String) (formals : List Ty)
    (alternatives : OrderedSet Production) : declareAlias typeOf name formals alternatives = do
      let declared ← Building.make (Making.newAlias name formals none)
      Building.register (·.declare · name (.aliasRef declared))
      let body ← bodyType typeOf alternatives
      fillSlot name declared body
      return .aliasRef declared := by
  unfold declareAlias bodyType fillSlot
  congr 1
  funext declared
  congr 1
  funext _
  rcases bodySymbol? alternatives with _ | symbol
  all_goals
    simp only [bind_assoc]
    congr 1
    funext body
    congr 1
    funext world
    rcases world.store.fill? declared body with _ | _ <;> simp

theorem run_fillSlot (name : String) (declared : AliasRef Ty) (body : Ty) (world : World) :
    (fillSlot name declared body).run.run world = match world.store.fill? declared body with
      | some store => (.ok (), { world with store })
      | none => (.error (.error (.fault (.filledTwice name))), world) := by
  rw [fillSlot, Building.run_bind]
  change (match world.store.fill? declared body with
    | some store => set { world with store }
    | none => throw (.error (.fault (.filledTwice name))) : Building Unit).run.run world = _
  split <;> rfl

theorem meets_fillSlot {name : String} {declared : AliasRef Ty} {body : Ty} {world : World}
    {ok : Unit → World → Prop} {failed : Failure → World → Prop} :
    (fillSlot name declared body).Meets world ok failed ↔
      match world.store.fill? declared body with
      | some store => ok () { world with store }
      | none => failed (.error (.fault (.filledTwice name))) world := by
  simp only [fillSlot, Building.meets_bind, Building.meets_get]
  split <;> rfl

end Reconstruct

end Reification
