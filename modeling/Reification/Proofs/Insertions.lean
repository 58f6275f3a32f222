import Reification.Proofs.Closure
import Reification.Proofs.Tidy

/-!
# Insertions into the declarations

The run of a computation consists of steps, each of which leaves the registry as it is or changes it
once.  The names which these changes insert into the declarations are listed in their order, also if
a name is inserted again.  A reconstruction never inserts a name again.
-/

namespace Reification

/-- Whether the declarations change by the insertion of the listed names, of which there is one or
none. -/
inductive Registry.Adds : Registry → List String → Registry → Prop
  | none {before after : Registry}
      (declarations_eq : after.own.declarations = before.own.declarations) : Adds before [] after
  | one {before after : Registry} {name : String} {type : Ty}
      (declarations_eq : after.own.declarations = before.own.declarations.insert name type) :
      Adds before [name] after

namespace Building

/-- The run of a computation from a world to its outcome, with the names which its steps insert into
the declarations. -/
inductive Traces : {α : Type} → Building α → World → List String → Except Failure α × World → Prop
  | pure {α : Type} {world : World} (result : α) :
      Traces (pure result) world [] (.ok result, world)
  | throw {α : Type} {world : World} (failure : Failure) :
      Traces (throw failure : Building α) world [] (.error failure, world)
  | get {world : World} : Traces (get : Building World) world [] (.ok world, world)
  | store {world : World} (store : Store) :
      Traces (set { world with store } : Building PUnit) world [] (.ok ⟨⟩, { world with store })
  | register {world : World} {registry : Registry} {names : List String}
      {change : Registry → Store → Except Failure Registry}
      (change_eq : change world.registry world.store = .ok registry)
      (adds : world.registry.Adds names registry) :
      Traces (register change) world names (.ok (), { world with registry })
  | register_error {world : World} {failure : Failure}
      {change : Registry → Store → Except Failure Registry}
      (change_eq : change world.registry world.store = .error failure) :
      Traces (register change) world [] (.error failure, world)
  | bind {α β : Type} {building : Building α} {next : α → Building β} {world middle : World}
      {result : α} {names more : List String} {outcome : Except Failure β × World}
      (first : Traces building world names (.ok result, middle))
      (second : Traces (next result) middle more outcome) :
      Traces (building >>= next) world (names ++ more) outcome
  | bind_error {α β : Type} {building : Building α} {next : α → Building β} {world after : World}
      {failure : Failure} {names : List String}
      (first : Traces building world names (.error failure, after)) :
      Traces (building >>= next) world names (.error failure, after)

variable {α β : Type}

/-- Whether a computation inserts only names which are not declared. -/
def InsertsOnce (building : Building α) : Prop :=
  ∀ world, ∃ names, building.Traces world names (building.run.run world) ∧
    world.registry.Inserts names (building.run.run world).2.registry

theorem insertsOnce_pure (result : α) : InsertsOnce (pure result) :=
  fun _ => ⟨[], .pure result, .refl _⟩

theorem insertsOnce_throw (failure : Failure) : InsertsOnce (throw failure : Building α) :=
  fun _ => ⟨[], .throw failure, .refl _⟩

theorem insertsOnce_get : InsertsOnce (get : Building World) := fun _ => ⟨[], .get, .refl _⟩

theorem InsertsOnce.bind {building : Building α} {next : α → Building β}
    (first : building.InsertsOnce) (second : ∀ result, (next result).InsertsOnce) :
    (building >>= next).InsertsOnce := by
  intro world
  obtain ⟨names, traces, inserts⟩ := first world
  rw [run_bind]
  rcases run_eq : building.run.run world with ⟨failure | result, middle⟩
  · rw [run_eq] at traces inserts
    exact ⟨names, .bind_error traces, inserts⟩
  · rw [run_eq] at traces inserts
    obtain ⟨more, traces_more, inserts_more⟩ := second result middle
    exact ⟨names ++ more, .bind traces traces_more, inserts.trans inserts_more⟩

/-- What is declared stays declared. -/
theorem InsertsOnce.lookup?_eq {building : Building α} (inserts : building.InsertsOnce)
    {world after : World} {outcome : Except Failure α}
    (run_eq : building.run.run world = (outcome, after)) {name : String} {type : Ty}
    (declared : world.registry.lookup? name = some type) :
    after.registry.lookup? name = some type := by
  obtain ⟨_, -, inserts⟩ := inserts world
  rw [run_eq] at inserts
  exact inserts.lookup?_eq declared

/-- A computation may look at its world first. -/
theorem insertsOnce_get_bind {next : World → Building α}
    (inserts : ∀ world, ∃ names, (next world).Traces world names ((next world).run.run world) ∧
      world.registry.Inserts names ((next world).run.run world).2.registry) :
    InsertsOnce (get >>= next) := by
  intro world
  obtain ⟨names, traces, inserts⟩ := inserts world
  exact ⟨[] ++ names, .bind .get traces, inserts⟩

theorem insertsOnce_make (making : Making α) : InsertsOnce (make making) := by
  refine insertsOnce_get_bind fun world => ?_
  rcases making.run world.store with _ | ⟨result, store⟩
  · exact ⟨[], .throw _, .refl _⟩
  · exact ⟨[] ++ [], .bind (.store store) (.pure result), .refl _⟩

/-- A step which changes the registry may insert one name which is not declared. -/
theorem insertsOnce_register {change : Registry → Store → Except Failure Registry}
    (changes : ∀ registry store changed, change registry store = .ok changed →
      ∃ names, registry.Adds names changed ∧ registry.Inserts names changed) :
    InsertsOnce (register change) := by
  intro world
  rw [run_register]
  rcases change_eq : change world.registry world.store with failure | registry
  · exact ⟨[], .register_error change_eq, .refl _⟩
  · obtain ⟨names, adds, inserts⟩ := changes _ _ _ change_eq
    exact ⟨names, .register change_eq adds, inserts⟩

end Building

namespace Registry

variable {registry changed : Registry} {store : Store} {name : String} {type : Ty}

/-- A name is inserted when it is declared first, and only then. -/
theorem declare_inserts (declare_eq : registry.declare store name type = .ok changed) :
    ∃ names, registry.Adds names changed ∧ registry.Inserts names changed := by
  obtain ⟨lookup_eq, rfl⟩ | ⟨-, rfl⟩ := declare_inv declare_eq
  · exact ⟨[name], .one rfl, .single lookup_eq rfl rfl⟩
  · exact ⟨[], .none rfl, .refl _⟩

/-- A constructor is declared with its data type. -/
theorem declareConstructor_inserts {constructor : Constructor Ty}
    (declare_eq : registry.declareConstructor store constructor = .ok changed) :
    ∃ names, registry.Adds names changed ∧ registry.Inserts names changed := by
  obtain ⟨declared, _, owner_eq, -, ⟨-, rfl⟩ | ⟨-, rfl⟩⟩ := declareConstructor_inv declare_eq
  · exact declare_inserts owner_eq
  · obtain ⟨names, adds, inserts⟩ := declare_inserts owner_eq
    refine ⟨names, ?_, inserts.of_done rfl rfl⟩
    cases adds with
    | none declarations_eq => exact .none declarations_eq
    | one declarations_eq => exact .one declarations_eq

end Registry

namespace Reconstruct

open Building

variable {resolve : Resolver}

theorem closed_insertsOnce : Closed @InsertsOnce where
  pure := insertsOnce_pure
  throw := insertsOnce_throw
  get := insertsOnce_get
  make _ := insertsOnce_make _
  bind := InsertsOnce.bind

theorem sortWith_insertsOnce (name : String) : (sortWith resolve name).InsertsOnce := by
  unfold sortWith
  split
  · refine insertsOnce_register fun registry _ changed changed_eq => ?_
    obtain rfl := Except.ok.inj changed_eq
    exact ⟨[], .none rfl, .done rfl rfl⟩
  · exact insertsOnce_pure _

theorem namedWith_insertsOnce {expand : String → Symbol → Building Ty}
    (expands : ∀ name subject, (expand name subject).InsertsOnce) (name : String)
    (actuals : List Ty) : (namedWith resolve expand name actuals).InsertsOnce := by
  refine insertsOnce_get.bind fun world => ?_
  split
  · exact applied_closed closed_insertsOnce _ _
  · split
    · exact (expands _ _).bind fun _ => applied_closed closed_insertsOnce _ _
    · exact (insertsOnce_make _).bind fun _ => insertsOnce_pure _

theorem declareConstructors_insertsOnce {fieldsOf : List Symbol → Building (List (Field Ty))}
    (fields : ∀ symbols, (fieldsOf symbols).InsertsOnce) (owner : DataRef Ty)
    (productions : List Production) :
    (declareConstructors fieldsOf owner productions).InsertsOnce := by
  induction productions with
  | nil => exact insertsOnce_pure _
  | cons production productions ih =>
    simp only [declareConstructors]
    split
    · exact (fields _).bind fun _ => (insertsOnce_make _).bind fun _ =>
        (insertsOnce_register fun _ _ _ => Registry.declareConstructor_inserts).bind fun _ => ih
    · exact ih

theorem declareData_insertsOnce {fieldsOf : List Symbol → Building (List (Field Ty))}
    (fields : ∀ symbols, (fieldsOf symbols).InsertsOnce) (name : String) (formals : List Ty)
    (alternatives : OrderedSet Production) :
    (declareData fieldsOf name formals alternatives).InsertsOnce :=
  (insertsOnce_make _).bind fun declared =>
    (insertsOnce_register fun _ _ _ => Registry.declare_inserts).bind fun _ =>
      (declareConstructors_insertsOnce fields declared _).bind fun _ => insertsOnce_pure _

theorem bodyType_insertsOnce {typeOf : Symbol → Building Ty}
    (types : ∀ symbol, (typeOf symbol).InsertsOnce) (alternatives : OrderedSet Production) :
    (bodyType typeOf alternatives).InsertsOnce := by
  unfold bodyType
  split
  · exact types _
  · exact insertsOnce_pure _

theorem fillSlot_insertsOnce (name : String) (declared : AliasRef Ty) (body : Ty) :
    (fillSlot name declared body).InsertsOnce := by
  refine insertsOnce_get_bind fun world => ?_
  split
  · exact ⟨[], .store _, .refl _⟩
  · exact ⟨[], .throw _, .refl _⟩

theorem declareAlias_insertsOnce {typeOf : Symbol → Building Ty}
    (types : ∀ symbol, (typeOf symbol).InsertsOnce) (name : String) (formals : List Ty)
    (alternatives : OrderedSet Production) :
    (declareAlias typeOf name formals alternatives).InsertsOnce := by
  rw [declareAlias_eq]
  exact (insertsOnce_make _).bind fun declared =>
    (insertsOnce_register fun _ _ _ => Registry.declare_inserts).bind fun _ =>
      (bodyType_insertsOnce types _).bind fun known =>
        (fillSlot_insertsOnce name declared known).bind fun _ => insertsOnce_pure _

theorem expandWithin_insertsOnce (depth : Nat) (name : String) (subject : Symbol) :
    (expandWithin resolve depth name subject).InsertsOnce := by
  induction depth generalizing name subject with
  | zero => exact insertsOnce_throw _
  | succ depth ih =>
    have types (symbol : Symbol) : (typeWith (namedWith resolve (expandWithin resolve depth))
        (sortWith resolve) symbol).InsertsOnce :=
      typeWith_closed closed_insertsOnce (fun name _ => namedWith_insertsOnce ih name)
        fun name _ => sortWith_insertsOnce name
    have fields (symbols : List Symbol) : (fieldsWith (namedWith resolve
        (expandWithin resolve depth)) (sortWith resolve) symbols).InsertsOnce :=
      fieldsWith_closed closed_insertsOnce fun symbol _ => types symbol
    unfold expandWithin
    split
    · exact (typesWith_closed closed_insertsOnce fun symbol _ => types symbol).bind fun _ =>
        declareAlias_insertsOnce types _ _ _
    · exact (typesWith_closed closed_insertsOnce fun symbol _ => types symbol).bind fun _ =>
        declareData_insertsOnce fields _ _ _
    · exact declareData_insertsOnce fields _ _ _

/-- A reconstruction inserts no name which is declared. -/
theorem typeWithin_insertsOnce (depth : Nat) (symbol : Symbol) :
    (typeWithin resolve depth symbol).InsertsOnce :=
  typeWith_closed closed_insertsOnce
    (fun name _ => namedWith_insertsOnce (expandWithin_insertsOnce depth) name)
    fun name _ => sortWith_insertsOnce name

end Reconstruct

end Reification
