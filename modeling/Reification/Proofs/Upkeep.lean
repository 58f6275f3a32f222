import Reification.Proofs.Tidy

/-!
# Keeping worlds tidy

What is made from the nodes of a tidy world leaves the world tidy, and so does the instantiation of a
type.  It ends if formal parameters do not lead in cycles, since there are no aliases with parameters
then.
-/

namespace Reification

namespace Making

variable {α β : Type} {store : Store} {ok : α → Store → Prop} {failed : Prop}

/-- The outcome of a computation in a store is as stated, whether it ends or not. -/
def Meets (making : Making α) (store : Store) (ok : α → Store → Prop) (failed : Prop) : Prop :=
  match making.run store with
  | some (result, after) => ok result after
  | none => failed

theorem meets_of_run_eq {making : Making α} {result : α} {after : Store}
    (run_eq : making.run store = some (result, after)) :
    making.Meets store ok failed ↔ ok result after := by
  simp only [Meets, run_eq]

theorem meets_of_run_eq_none {making : Making α} (run_eq : making.run store = none) :
    making.Meets store ok failed ↔ failed := by
  simp only [Meets, run_eq]

theorem Meets.mono {making : Making α} {ok' : α → Store → Prop}
    (meets : making.Meets store ok failed)
    (ok_le : ∀ result after, ok result after → ok' result after) : making.Meets store ok' failed := by
  rcases run_eq : making.run store with _ | ⟨result, after⟩
  · rw [meets_of_run_eq_none run_eq] at meets ⊢
    exact meets
  · rw [meets_of_run_eq run_eq] at meets ⊢
    exact ok_le result after meets

theorem Meets.and {making : Making α} {ok' : α → Store → Prop}
    (first : making.Meets store ok failed) (second : making.Meets store ok' True) :
    making.Meets store (fun result after => ok result after ∧ ok' result after) failed := by
  rcases run_eq : making.run store with _ | ⟨result, after⟩
  · rw [meets_of_run_eq_none run_eq] at first ⊢
    exact first
  · rw [meets_of_run_eq run_eq] at first second ⊢
    exact ⟨first, second⟩

theorem meets_true (making : Making α) : making.Meets store (fun _ _ => True) True := by
  unfold Meets
  split <;> trivial

theorem meets_bind {making : Making α} {next : α → Making β} {ok : β → Store → Prop} :
    (making >>= next).Meets store ok failed ↔
      making.Meets store (fun result after => (next result).Meets after ok failed) failed := by
  unfold Meets
  rw [StateT.run_bind]
  rcases making.run store with _ | ⟨result, after⟩ <;> rfl

end Making

namespace Reconstruct.Setting

variable {setting : Setting} {world : World} {α β : Type}

/-- A computation leaves a tidy world, with a result as stated.  It ends if formal parameters do not
lead in cycles. -/
def Makes (setting : Setting) (making : Making α) (world : World) (post : α → World → Prop) : Prop :=
  making.Meets world.store (fun result store => world.Retains { world with store } ∧
    setting.Tidy { world with store } ∧ post result { world with store })
    (¬Terminating setting.resolve)

/-- A computation which declares types leaves a tidy world, with a result as stated.  It ends if
formal parameters do not lead in cycles. -/
def Tidies (setting : Setting) (building : Building α) (world : World)
    (post : α → World → Prop) : Prop :=
  building.Meets world (fun result after => world.Retains after ∧ setting.Tidy after ∧
    post result after)
    fun failure after => world.Retains after ∧ (Terminating setting.resolve → failure ≠ .endless)

section Rules

variable {post : α → World → Prop}

theorem makes_pure {result : α} (tidy : setting.Tidy world) (holds : post result world) :
    setting.Makes (pure result) world post := ⟨.refl world, tidy, holds⟩

theorem Makes.bind {making : Making α} {next : α → Making β} {post' : β → World → Prop}
    (first : setting.Makes making world post)
    (second : ∀ result after, world.Retains after → setting.Tidy after → post result after →
      setting.Makes (next result) after post') : setting.Makes (making >>= next) world post' := by
  refine Making.meets_bind.mpr (Making.Meets.mono first ?_)
  rintro result store ⟨retains, tidy, holds⟩
  refine Making.Meets.mono (second result { world with store } retains tidy holds) ?_
  rintro last after ⟨later, rest⟩
  exact ⟨retains.trans later, rest⟩

theorem Makes.mono {making : Making α} {post' : α → World → Prop}
    (makes : setting.Makes making world post) (le : ∀ result after, world.Retains after →
      setting.Tidy after → post result after → post' result after) :
    setting.Makes making world post' :=
  Making.Meets.mono makes fun _ _ ⟨retains, tidy, holds⟩ =>
    ⟨retains, tidy, le _ _ retains tidy holds⟩

theorem tidies_pure {result : α} (tidy : setting.Tidy world) (holds : post result world) :
    setting.Tidies (pure result) world post := ⟨.refl world, tidy, holds⟩

theorem Tidies.bind {building : Building α} {next : α → Building β} {post' : β → World → Prop}
    (first : setting.Tidies building world post)
    (second : ∀ result after, world.Retains after → setting.Tidy after → post result after →
      setting.Tidies (next result) after post') :
    setting.Tidies (building >>= next) world post' := by
  refine Building.Meets.bind first ?_ fun _ _ => id
  rintro result middle ⟨retains, tidy, holds⟩
  refine Building.Meets.mono (second result middle retains tidy holds) ?_ ?_
  · rintro last after ⟨later, rest⟩
    exact ⟨retains.trans later, rest⟩
  · rintro failure after ⟨later, rest⟩
    exact ⟨retains.trans later, rest⟩

theorem Tidies.mono {building : Building α} {post' : α → World → Prop}
    (tidies : setting.Tidies building world post) (le : ∀ result after, world.Retains after →
      setting.Tidy after → post result after → post' result after) :
    setting.Tidies building world post' :=
  Building.Meets.mono tidies (fun _ _ ⟨retains, tidy, holds⟩ =>
    ⟨retains, tidy, le _ _ retains tidy holds⟩) fun _ _ => id

/-- Making references leaves the registry as it is. -/
theorem tidies_make_registry {making : Making α} (makes : setting.Makes making world post) :
    setting.Tidies (Building.make making) world fun result after =>
      after.registry = world.registry ∧ post result after := by
  refine Building.meets_make.mpr ?_
  rcases run_eq : making.run world.store with _ | ⟨result, store⟩
  · exact ⟨.refl world, fun terminating =>
      absurd terminating ((Making.meets_of_run_eq_none run_eq).mp makes)⟩
  · obtain ⟨retains, tidy, holds⟩ := (Making.meets_of_run_eq run_eq).mp makes
    exact ⟨retains, tidy, rfl, holds⟩

theorem tidies_make {making : Making α} (makes : setting.Makes making world post) :
    setting.Tidies (Building.make making) world post :=
  (tidies_make_registry makes).mono fun _ _ _ _ => And.right

theorem tidies_ask {question : Registry → Store → Option α} (tidy : setting.Tidy world)
    (ends : Terminating setting.resolve → question world.registry world.store ≠ none)
    (holds : ∀ result, question world.registry world.store = some result → post result world) :
    setting.Tidies (Building.ask question) world post := by
  refine Building.meets_ask.mpr ?_
  split
  · next result answer => exact ⟨.refl world, tidy, holds result answer⟩
  · next none => exact ⟨.refl world, fun terminating => absurd none (ends terminating)⟩

/-- A computation may look at its world first. -/
theorem tidies_get {next : World → Building α} (tidies : setting.Tidies (next world) world post) :
    setting.Tidies (get >>= next) world post := Building.meets_bind.mpr tidies

end Rules

section Making

/-- A tidy world stays tidy if all that is added to it is as it should be. -/
theorem Tidy.of_retains {after : World} (tidy : setting.Tidy world) (retains : world.Retains after)
    (inherited_eq : after.registry.inherited = world.registry.inherited)
    (declared : ∀ ⦃name type⦄, after.registry.lookup? name = some type →
      world.registry.lookup? name = some type ∨ setting.Registered world name type)
    (constructors : ∀ ⦃name constructor⦄, constructor ∈ after.registry.own.constructorsOf name →
      constructor ∈ world.registry.own.constructorsOf name ∨ constructor.owner.name = name ∧
        setting.Canonical world.registry name (.dataRef constructor.owner) ∧
          (Ty.constructor constructor).All (setting.Accepts world))
    (bodies : ∀ ⦃reference body⦄, after.store.body? reference = some body →
      world.store.body? reference = some body ∨ body.All (setting.Accepts world)) :
    setting.Tidy after where
  inherited_eq := inherited_eq.trans tidy.inherited_eq
  declared _ _ lookup_eq :=
    ((declared lookup_eq).elim (fun old => tidy.declared old) id).mono retains
  constructors _ _ mem :=
    have ⟨owner_eq, canonical, all⟩ := (constructors mem).elim (fun old => tidy.constructors old) id
    ⟨owner_eq, canonical.mono retains, all_mono all retains⟩
  bodies _ _ body_eq :=
    all_mono ((bodies body_eq).elim (fun old => tidy.bodies old) id) retains

/-- The declarations do not change with the store. -/
theorem Tidy.of_store (tidy : setting.Tidy world) {store : Store}
    (retains : world.Retains { world with store })
    (bodies : ∀ ⦃reference body⦄, store.body? reference = some body →
      world.store.body? reference = some body ∨ body.All (setting.Accepts world)) :
    setting.Tidy { world with store } :=
  tidy.of_retains retains rfl (fun _ _ => .inl) (fun _ _ => .inl) bodies

theorem makes_newData (tidy : setting.Tidy world) (name : String) (parameters : List Ty) :
    setting.Makes (Making.newData name parameters) world fun reference _ =>
      reference.name = name ∧ reference.parameters = parameters :=
  have retains : world.Retains { world with store := (world.store.makeData name parameters).2 } :=
    .of_store fun _ => id
  ⟨retains, tidy.of_store retains fun _ _ => .inl, rfl, rfl⟩

theorem makes_newConstructor (tidy : setting.Tidy world) (owner : DataRef Ty) (name : String)
    (fields : List (Field Ty)) (attributes : OrderedSet Attribute) :
    setting.Makes (Making.newConstructor owner name fields attributes) world fun reference _ =>
      reference.owner = owner ∧ reference.name = name ∧ reference.fields = fields ∧
        reference.attributes = attributes :=
  have retains : world.Retains { world with
      store := (world.store.makeConstructor owner name fields attributes).2 } :=
    .of_store fun _ => id
  ⟨retains, tidy.of_store retains fun _ _ => .inl, rfl, rfl, rfl, rfl⟩

theorem makes_newAlias (tidy : setting.Tidy world) (name : String) (parameters : List Ty)
    {body : Option Ty} (body_all : ∀ known, body = some known → known.All (setting.Accepts world)) :
    setting.Makes (Making.newAlias name parameters body) world fun reference after =>
      reference.name = name ∧ reference.parameters = parameters ∧
        after.store.body? reference = body := by
  have body?_eq := world.store.body?_makeAlias name parameters body
  have retains : world.Retains { world with
      store := (world.store.makeAlias name parameters body).2 } := by
    refine .of_store fun reference known => ?_
    obtain ⟨known, known_eq⟩ := Option.ne_none_iff_exists'.mp known
    have distinct := (Store.lt_size_of_body? known_eq).ne
    simp [body?_eq, distinct, known_eq]
  refine ⟨retains, tidy.of_store retains fun reference known known_eq => ?_, rfl, rfl, ?_⟩
  · replace known_eq := (body?_eq reference).symm.trans known_eq
    split at known_eq
    · exact .inr (body_all known known_eq)
    · exact .inl known_eq
  · exact (body?_eq _).trans (if_pos rfl)

end Making

section Instantiating

variable {bindings : Bindings} {body : AliasRef Ty → Making (Option Ty)}

/-- Whether the types which are bound to names may occur. -/
def Binds (setting : Setting) (world : World) (bindings : Bindings) : Prop :=
  ∀ ⦃name type⦄, bindings.get? name = some type → type.All (setting.Accepts world)

theorem Binds.mono {after : World} (binds : setting.Binds world bindings)
    (retains : world.Retains after) : setting.Binds after bindings :=
  fun _ _ bound => all_mono (binds bound) retains

theorem binds_ofParameters (formals : List Ty) {actuals : List Ty}
    (all : ∀ actual ∈ actuals, actual.All (setting.Accepts world)) :
    setting.Binds world (.ofParameters formals actuals) := by
  have step {pairs : List (Ty × Ty)} (pairs_all : ∀ pair ∈ pairs, pair.2.All (setting.Accepts world))
      {bindings : Bindings} (binds : setting.Binds world bindings) :
      setting.Binds world (pairs.foldl Bindings.bind bindings) := by
    induction pairs generalizing bindings with
    | nil => exact binds
    | cons pair pairs ih =>
      obtain ⟨head_all, tail_all⟩ := List.forall_mem_cons.mp pairs_all
      refine ih tail_all ?_
      obtain ⟨formal, actual⟩ := pair
      cases formal with
      | parameter formal bound =>
        intro name type bound
        rw [Bindings.bind, Table.get?_insert] at bound
        split at bound
        · exact Option.some.inj bound ▸ head_all
        · exact binds bound
      | _ => exact binds
  refine step (fun pair mem => all _ (List.of_mem_zip mem).2) fun name type bound => ?_
  simp at bound

/-- The instantiated body of an alias may occur; it is missing only if the alias may lack one. -/
def MakesBody (setting : Setting) (bindings : Bindings) (body : AliasRef Ty → Making (Option Ty)) :
    Prop :=
  ∀ ⦃world reference⦄, setting.Tidy world → setting.Accepts world (.aliasRef reference) →
    reference.parameters ≠ [] → setting.Binds world bindings →
    setting.Makes (body reference) world fun result after =>
      (∀ known, result = some known → known.All (setting.Accepts after)) ∧
        (result = none → setting.Recurs reference.name)

theorem instantiateAllWith_makes {types : List Ty} (tidy : setting.Tidy world)
    (binds : setting.Binds world bindings)
    (types_all : ∀ type ∈ types, type.All (setting.Accepts world))
    (make : ∀ type ∈ types, ∀ ⦃world⦄, setting.Tidy world → setting.Binds world bindings →
      type.All (setting.Accepts world) → setting.Makes (type.instantiateWith bindings body) world
        fun result after => result.All (setting.Accepts after)) :
    setting.Makes (Ty.instantiateAllWith bindings body types) world fun results after =>
      results.length = types.length ∧ ∀ result ∈ results, result.All (setting.Accepts after) := by
  induction types generalizing world with
  | nil => exact makes_pure tidy ⟨rfl, by simp⟩
  | cons type types ih =>
    obtain ⟨head_all, tail_all⟩ := List.forall_mem_cons.mp types_all
    obtain ⟨head_make, tail_make⟩ := List.forall_mem_cons.mp make
    refine (head_make tidy binds head_all).bind fun result first retains tidy all => ?_
    refine (ih tidy (binds.mono retains) (fun type mem => all_mono (tail_all type mem) retains)
      tail_make).bind fun results second later tidy ⟨length_eq, results_all⟩ => ?_
    exact makes_pure tidy ⟨by simp [length_eq],
      List.forall_mem_cons.mpr ⟨all_mono all later, results_all⟩⟩

theorem instantiateFieldsWith_makes {fields : List (Field Ty)} (tidy : setting.Tidy world)
    (binds : setting.Binds world bindings)
    (fields_all : ∀ field ∈ fields, field.type.All (setting.Accepts world))
    (make : ∀ field ∈ fields, ∀ ⦃world⦄, setting.Tidy world → setting.Binds world bindings →
      field.type.All (setting.Accepts world) →
        setting.Makes (field.type.instantiateWith bindings body) world
          fun result after => result.All (setting.Accepts after)) :
    setting.Makes (Ty.instantiateFieldsWith bindings body fields) world fun results after =>
      ∀ field ∈ results, field.type.All (setting.Accepts after) := by
  induction fields generalizing world with
  | nil => exact makes_pure tidy (by simp)
  | cons field fields ih =>
    obtain ⟨head_all, tail_all⟩ := List.forall_mem_cons.mp fields_all
    obtain ⟨head_make, tail_make⟩ := List.forall_mem_cons.mp make
    refine (head_make tidy binds head_all).bind fun result first retains tidy all => ?_
    refine (ih tidy (binds.mono retains) (fun field mem => all_mono (tail_all field mem) retains)
      tail_make).bind fun results second later tidy results_all => ?_
    exact makes_pure tidy (List.forall_mem_cons.mpr ⟨all_mono all later, results_all⟩)

/-- A type whose parts may occur is instantiated to one whose parts may occur.  A reference without
parameters stays the same object, and the others are no declared objects. -/
theorem instantiateWith_makes (makes_body : setting.MakesBody bindings body) {type : Ty}
    (tidy : setting.Tidy world) (binds : setting.Binds world bindings)
    (all : type.All (setting.Accepts world)) :
    setting.Makes (type.instantiateWith bindings body) world fun result after =>
      result.All (setting.Accepts after) := by
  induction type using Ty.induction generalizing world with
  | prim | sort => exact makes_pure tidy all
  | list _ ih | set _ ih | reified _ ih =>
    refine (ih tidy binds ((Ty.all_iff.mp all).2 _ (List.mem_singleton_self _))).bind
      fun _ _ _ tidy all => makes_pure tidy (all_of_children trivial (by simp) ?_)
    exact List.forall_mem_singleton.mpr all
  | parameter name bound =>
    refine makes_pure tidy ?_
    rcases bound_eq : bindings.get? name with _ | actual
    · exact all
    · exact binds bound_eq
  | map _ _ ih_key ih_value =>
    have children := (Ty.all_iff.mp all).2
    refine (ih_key tidy binds (children _ (by simp [Ty.children]))).bind
      fun _ _ retains tidy key_all => ?_
    refine (ih_value tidy (binds.mono retains)
      (all_mono (children _ (by simp [Ty.children])) retains)).bind
        fun _ _ later tidy value_all => makes_pure tidy (all_of_children trivial (by simp) ?_)
    exact List.forall_mem_cons.mpr ⟨all_mono key_all later, List.forall_mem_singleton.mpr value_all⟩
  | tuple fields ih =>
    refine (instantiateFieldsWith_makes tidy binds
      (fun field mem => (Ty.all_iff.mp all).2 _ (List.mem_map_of_mem mem))
      fun field mem _ tidy binds all => ih field mem tidy binds all).bind
        fun _ _ _ tidy fields_all => makes_pure tidy (all_of_children trivial (by simp) ?_)
    exact List.forall_mem_map.mpr fields_all
  | func result arguments ih ih_arguments =>
    have children := (Ty.all_iff.mp all).2
    refine (ih tidy binds (children _ (List.mem_cons_self ..))).bind
      fun _ _ retains tidy result_all => ?_
    refine (instantiateFieldsWith_makes tidy (binds.mono retains)
      (fun field mem => all_mono (children _ (List.mem_cons_of_mem _ (List.mem_map_of_mem mem)))
        retains) fun field mem _ tidy binds all => ih_arguments field mem tidy binds all).bind
          fun _ _ later tidy fields_all => makes_pure tidy (all_of_children trivial (by simp) ?_)
    exact List.forall_mem_cons.mpr ⟨all_mono result_all later, List.forall_mem_map.mpr fields_all⟩
  | dataRef object name parameters ih =>
    obtain ⟨accepts, children⟩ := Ty.all_iff.mp all
    rw [Ty.instantiateWith]
    split
    · exact makes_pure tidy all
    · next some_parameter =>
      have some_parameter : parameters ≠ [] := by simpa using some_parameter
      refine (instantiateAllWith_makes tidy binds children fun type mem _ => ih type mem).bind
        fun actuals _ retains tidy actuals_made => ?_
      refine (makes_newData tidy name actuals).bind
        fun reference after later tidy made => makes_pure tidy ?_
      obtain ⟨name_eq, parameters_eq⟩ := made
      have canonical : setting.Canonical after.registry reference.name (.dataRef reference) :=
        name_eq ▸ (Canonical.copy accepts.1 some_parameter _).mono (retains.trans later)
      refine all_of_children canonical (by simp) fun part mem => all_mono ?_ later
      exact actuals_made.2 part (parameters_eq ▸ mem)
  | aliasRef object name parameters ih =>
    obtain ⟨accepts, children⟩ := Ty.all_iff.mp all
    rw [Ty.instantiateWith]
    split
    · exact makes_pure tidy all
    · next some_parameter =>
      have some_parameter : parameters ≠ [] := by simpa using some_parameter
      refine (instantiateAllWith_makes tidy binds children fun type mem _ => ih type mem).bind
        fun actuals first retains tidy actuals_made => ?_
      refine (makes_body tidy (accepts.mono retains) some_parameter (binds.mono retains)).bind
        fun body second later tidy body_made => ?_
      refine (makes_newAlias tidy name actuals body_made.1).bind
        fun reference after last tidy made => makes_pure tidy ?_
      obtain ⟨length_eq, actuals_all⟩ := actuals_made
      obtain ⟨name_eq, parameters_eq, body_eq⟩ := made
      have canonical : setting.Canonical after.registry reference.name (.aliasRef reference) :=
        name_eq ▸ (Canonical.copy accepts.1.2 some_parameter _).mono
          ((retains.trans later).trans last)
      refine Ty.all_iff.mpr ⟨⟨⟨name_eq ▸ accepts.1.1, canonical⟩, ?_⟩, fun part mem =>
        all_mono (actuals_all part (parameters_eq ▸ mem)) (later.trans last)⟩
      rintro _ ⟨⟩
      cases body with
      | some body => exact .inl (by simp [body_eq])
      | none =>
        refine .inr (.inr ⟨?_, name_eq ▸ body_made.2 rfl⟩)
        rw [parameters_eq]
        exact List.ne_nil_of_length_pos (length_eq ▸ List.length_pos_iff.mpr some_parameter)
  | constructor object owner ownerName parameters name fields attributes ih ih_fields =>
    obtain ⟨accepts, children⟩ := Ty.all_iff.mp all
    rw [Ty.instantiateWith]
    split
    · exact makes_pure tidy all
    · next some_parameter =>
      have some_parameter : (Ty.dataRef ⟨owner, ownerName, parameters⟩).parameters ≠ [] :=
        fun none => some_parameter (List.isEmpty_iff.mpr none)
      refine (instantiateAllWith_makes tidy binds
        (fun part mem => children part (List.mem_append_left _ mem)) fun type mem _ =>
          ih type mem).bind fun actuals first retains tidy actuals_made => ?_
      refine (makes_newData tidy ownerName actuals).bind
        fun newOwner second later tidy owner_made => ?_
      have grown := retains.trans later
      refine (instantiateFieldsWith_makes tidy (binds.mono grown)
        (fun field mem => all_mono (children _ (List.mem_append_right _ (List.mem_map_of_mem mem)))
          grown) fun field mem _ => ih_fields field mem).bind
            fun results third next_ tidy results_all => ?_
      refine (makes_newConstructor tidy newOwner name results attributes).bind
        fun reference after last tidy made => makes_pure tidy ?_
      obtain ⟨name_eq, parameters_eq⟩ := owner_made
      obtain ⟨owner_eq, constructor_eq, fields_eq, -⟩ := made
      have identified : setting.Identified after.registry (.constructor reference) := by
        rw [Identified, owner_eq, constructor_eq, name_eq]
        exact accepts.1.imp_left fun canonical => (Canonical.copy canonical some_parameter _).mono
          ((grown.trans next_).trans last)
      refine all_of_children identified (by simp) fun part mem => ?_
      rw [Ty.children, owner_eq, parameters_eq, fields_eq] at mem
      rcases List.mem_append.mp mem with mem | mem
      · exact all_mono (actuals_made.2 part mem) ((later.trans next_).trans last)
      · obtain ⟨field, field_mem, rfl⟩ := List.mem_map.mp mem
        exact all_mono (results_all field field_mem) last

theorem instantiateWithin_makes (depth : Nat) {type : Ty} (tidy : setting.Tidy world)
    (binds : setting.Binds world bindings) (all : type.All (setting.Accepts world)) :
    setting.Makes (type.instantiateWithin bindings depth) world fun result after =>
      result.All (setting.Accepts after) := by
  suffices makes_body : setting.MakesBody bindings (Ty.instantiatedBody bindings depth) by
    rw [Ty.instantiateWithin_eq]
    exact instantiateWith_makes makes_body tidy binds all
  induction depth with
  | zero =>
    exact fun _ _ tidy accepts some_parameter _ => accepts.not_terminating tidy some_parameter
  | succ depth ih =>
    intro world reference tidy accepts some_parameter binds
    have makes_get {next : Store → Making (Option Ty)} {post : Option Ty → World → Prop}
        (makes : setting.Makes (next world.store) world post) :
        setting.Makes (get >>= next) world post := Making.meets_bind.mpr makes
    refine makes_get ?_
    split
    · next body body_eq =>
      rw [map_eq_pure_bind, Ty.instantiateWithin_eq]
      refine (instantiateWith_makes ih tidy binds (tidy.bodies body_eq)).bind
        fun result _ _ tidy all => makes_pure tidy ⟨?_, nofun⟩
      rintro _ ⟨⟩
      exact all
    · next body_eq =>
      refine makes_pure tidy ⟨nofun, fun _ => ?_⟩
      -- The slot is empty, so that the alias is a declared one which is pending, or a copy of it.
      obtain known | ⟨lookup_eq, -, encloses⟩ | ⟨-, recurs⟩ := accepts.2 reference rfl
      · exact absurd body_eq known
      · refine ⟨fun none => some_parameter (List.length_eq_zero_iff.mp ?_), encloses⟩
        exact (tidy.declared lookup_eq).length_eq.trans (List.length_eq_zero_iff.mpr none)
      · exact recurs

/-- A type is instantiated to one whose parts may occur. -/
theorem instantiate_makes {type : Ty} (tidy : setting.Tidy world)
    (binds : setting.Binds world bindings) (all : type.All (setting.Accepts world)) :
    setting.Makes (type.instantiate bindings) world fun result after =>
      result.All (setting.Accepts after) :=
  Making.meets_bind.mpr (instantiateWithin_makes _ tidy binds all)

/-- A type which refers to a declaration refers to the same one when it is instantiated, and a
reference to a data type stays one. -/
theorem instantiate_name? {type : Ty} {name : String} (name_eq : type.name? = some name)
    (store : Store) : (type.instantiate bindings).Meets store (fun result _ =>
      result.name? = some name ∧
        ((∃ reference, type = .dataRef reference) → ∃ reference, result = .dataRef reference))
      True := by
  refine Making.meets_bind.mpr ?_
  change Making.Meets (Ty.instantiateWithin bindings _ type) store _ _
  rw [Ty.instantiateWithin_eq]
  cases type with
  | dataRef reference =>
    rw [Ty.instantiateWith]
    split
    · exact ⟨name_eq, id⟩
    · exact Making.meets_bind.mpr ((Making.meets_true _).mono fun _ _ _ =>
        Making.meets_bind.mpr ⟨name_eq, fun _ => ⟨_, rfl⟩⟩)
  | aliasRef reference =>
    rw [Ty.instantiateWith]
    split
    · exact ⟨name_eq, id⟩
    · exact Making.meets_bind.mpr ((Making.meets_true _).mono fun _ _ _ =>
        Making.meets_bind.mpr ((Making.meets_true _).mono fun _ _ _ =>
          Making.meets_bind.mpr ⟨name_eq, by simp⟩))
  | constructor reference =>
    rw [Ty.instantiateWith]
    split
    · exact ⟨name_eq, id⟩
    · refine Making.meets_bind.mpr ((Making.meets_true _).mono fun _ _ _ => ?_)
      exact Making.meets_bind.mpr (Making.meets_bind.mpr ((Making.meets_true _).mono fun _ _ _ =>
        Making.meets_bind.mpr ⟨name_eq, by simp⟩))
  | sort => exact ⟨name_eq, by simp⟩
  | _ => simp [Ty.name?] at name_eq

/-- A type which refers to a declaration is instantiated to one whose parts may occur and which
refers to it, too. -/
theorem instantiate_makes_named {type : Ty} {name : String} (tidy : setting.Tidy world)
    (binds : setting.Binds world bindings) (all : type.All (setting.Accepts world))
    (name_eq : type.name? = some name) :
    setting.Makes (type.instantiate bindings) world fun result after =>
      result.All (setting.Accepts after) ∧ result.name? = some name ∧
        ((∃ reference, type = .dataRef reference) → ∃ reference, result = .dataRef reference) :=
  (Making.Meets.and (instantiate_makes tidy binds all) (instantiate_name? name_eq _)).mono
    fun _ _ ⟨⟨retains, tidy, all⟩, kept⟩ => ⟨retains, tidy, all, kept⟩

end Instantiating

end Reconstruct.Setting

end Reification
