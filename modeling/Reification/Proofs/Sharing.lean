import Reification.Proofs.Identity
import Reification.Proofs.Layers

/-!
# Sharing of declared constructors

A constructor symbol is looked for among the declared constructors of its data type, which are
instantiated first.  Without formal parameters an instance is the declared constructor itself.  With
formal parameters it is always a copy, even if the actual ones are the formal ones, so that the
declared constructor is never shared.
-/

namespace Reification

/-- Whether a constructor has a name and fields, as far as these can be compared in a store. -/
def Constructor.Matches (constructor : Constructor Ty) (store : Store) (name : String)
    (fields : List (Field Ty)) : Prop :=
  constructor.name = name ∧ store.sameFields constructor.fields fields = some true

instance (constructor : Constructor Ty) (store : Store) (name : String) (fields : List (Field Ty)) :
    Decidable (constructor.Matches store name fields) :=
  inferInstanceAs (Decidable (_ ∧ _))

/-- What matches later matches already. -/
theorem Constructor.Matches.of_grows {constructor : Constructor Ty} {heap : Heap} {later : Store}
    {name : String} {fields : List (Field Ty)} (matching : constructor.Matches later name fields)
    (grows : heap.store.Grows later) (known : heap.Known (.constructor constructor))
    (hold : ∀ field ∈ fields, heap.Holds field.type) : constructor.Matches heap.store name fields := by
  have fields_hold : heap.Holds (.tuple constructor.fields) :=
    (Heap.holds_tuple _).mpr fun _ => Heap.holds_of_mem_fields known
  have equal : later.same (.tuple constructor.fields) (.tuple fields) = some true := matching.2
  exact ⟨matching.1, (Heap.same_grows grows fields_hold ((Heap.holds_tuple _).mpr hold)).mp equal⟩

/-- A world in which references have been made and nothing else has changed. -/
structure World.OnlyMakes (before after : World) : Prop where
  registry_eq : after.registry = before.registry
  grows : before.store.Grows after.store

theorem World.OnlyMakes.refl (world : World) : world.OnlyMakes world := ⟨rfl, .refl _⟩

namespace Making

/-- Whether a computation, as far as it ends, gives a new reference. -/
def MakesNew (making : Making Ty) : Prop :=
  ∀ ⦃before result after⦄, making.run before = some (result, after) → ¬before.HasMade result

theorem makesNew_constructor (owner : DataRef Ty) (name : String) (fields : List (Field Ty))
    (attributes : OrderedSet Attribute) : MakesNew do
      return .constructor (← newConstructor owner name fields attributes) := by
  rintro before _ _ ⟨⟩
  exact Nat.lt_irrefl _

/-- What is new after some references have been made was new before. -/
theorem Keeps.bind_makesNew {α : Type} {making : Making α} {next : α → Making Ty}
    (keeps : making.Keeps) (new : ∀ result, (next result).MakesNew) :
    (making >>= next).MakesNew := by
  intro before result after run_eq
  rw [StateT.run_bind] at run_eq
  obtain ⟨⟨middle, store⟩, making_eq, next_eq⟩ := Option.bind_eq_some_iff.mp run_eq
  exact fun made => new middle next_eq (made.of_grows (keeps making_eq))

end Making

namespace Ty

variable {bindings : Bindings} {constructor : Constructor Ty} {store after : Store}

/-- A constructor of a data type without parameters is its own instance. -/
theorem run_instantiate_constructor (plain : constructor.owner.parameters = []) :
    ((Ty.constructor constructor).instantiate bindings).run store =
      some (.constructor constructor, store) := by
  have instance_eq (depth : Nat) : instantiateWithin bindings depth (.constructor constructor) =
      pure (.constructor constructor) := by
    rw [instantiateWithin_eq, instantiateWith_constructor, plain]
    rfl
  rw [instantiate, StateT.run_bind]
  simp only [instance_eq]
  rfl

/-- An instance of a constructor of a data type with parameters is new. -/
theorem instantiate_makesNew (some_parameter : constructor.owner.parameters ≠ []) :
    ((Ty.constructor constructor).instantiate bindings).MakesNew := by
  have keeps (depth : Nat) (type : Ty) :
      (type.instantiateWith bindings (instantiatedBody bindings depth)).Keeps :=
    instantiateWith_keeps (instantiatedBody_keeps depth) type
  have new (depth : Nat) : (instantiateWithin bindings depth (.constructor constructor)).MakesNew := by
    rw [instantiateWithin_eq, instantiateWith_constructor, if_neg (by simpa using some_parameter)]
    exact (instantiateAllWith_keeps fun type _ => keeps depth type).bind_makesNew fun _ =>
      (Making.keeps_newData _ _).bind_makesNew fun _ =>
        (instantiateFieldsWith_keeps fun field _ => keeps depth field.type).bind_makesNew
          fun _ => Making.makesNew_constructor _ _ _ _
  intro before result after run_eq
  rw [instantiate, StateT.run_bind] at run_eq
  obtain ⟨_, ⟨⟩, run_eq⟩ := Option.bind_eq_some_iff.mp run_eq
  exact new _ run_eq

end Ty

namespace Reconstruct

open Building

variable {resolve : Resolver} {world after : World} {heap : Heap} {name : String} {depth : Nat}

section Search

variable {bindings : Bindings} {fields : List (Field Ty)} {constructors : List (Constructor Ty)}
  {found : Option Ty} {type : Ty}

theorem run_findConstructor_cons {head : Constructor Ty} {rest : List (Constructor Ty)}
    (plain : head.owner.parameters = []) :
    (findConstructor bindings name fields (head :: rest)).run.run world =
      if head.name = name then match world.store.sameFields head.fields fields with
        | some true => (.ok (some (.constructor head)), world)
        | some false => (findConstructor bindings name fields rest).run.run world
        | none => (.error .endless, world)
      else (findConstructor bindings name fields rest).run.run world := by
  rw [findConstructor_cons, run_bind, run_make, Ty.run_instantiate_constructor plain]
  simp only [searched]
  split
  · rw [run_bind, run_ask]
    rcases world.store.sameFields head.fields fields with _ | _ | _ <;> rfl
  · rfl

/-- Without parameters, the first constructor which matches is found. -/
theorem findConstructor_eq_find?
    (plain : ∀ constructor ∈ constructors, constructor.owner.parameters = [])
    (run_eq : (findConstructor bindings name fields constructors).run.run world =
      (.ok found, after)) :
    found = (constructors.find? fun constructor =>
      constructor.Matches world.store name fields).map .constructor := by
  induction constructors with
  | nil =>
    cases run_eq
    rfl
  | cons head rest ih =>
    obtain ⟨head_plain, rest_plain⟩ := List.forall_mem_cons.mp plain
    rw [run_findConstructor_cons head_plain] at run_eq
    rw [List.find?_cons]
    split at run_eq
    · next name_eq =>
      split at run_eq
      · next equal =>
        cases run_eq
        simp [Constructor.Matches, name_eq, equal]
      · next differ => simpa [Constructor.Matches, differ] using ih rest_plain run_eq
      · cases run_eq
    · next name_ne => simpa [Constructor.Matches, name_ne] using ih rest_plain run_eq

/-- With parameters, what is found is a copy. -/
theorem not_hasMade_of_findConstructor
    (copied : ∀ constructor ∈ constructors, constructor.owner.parameters ≠ [])
    (run_eq : (findConstructor bindings name fields constructors).run.run world =
      (.ok (some type), after)) : ¬world.store.HasMade type := by
  induction constructors generalizing world with
  | nil => cases run_eq
  | cons head rest ih =>
    obtain ⟨head_copied, rest_copied⟩ := List.forall_mem_cons.mp copied
    rw [findConstructor_cons] at run_eq
    obtain ⟨candidate, middle, made_eq, run_eq⟩ := exists_of_run_bind run_eq
    rw [run_make] at made_eq
    split at made_eq
    · next store candidate_eq =>
      cases made_eq
      have later (run_eq : (findConstructor bindings name fields rest).run.run { world with store } =
          (.ok (some type), after)) : ¬world.store.HasMade type := fun made =>
        ih rest_copied run_eq (made.of_grows (Ty.instantiate_keeps _ candidate_eq))
      cases candidate with
      | constructor reference =>
        simp only [searched] at run_eq
        split at run_eq
        · obtain ⟨equal, _, ask_eq, run_eq⟩ := exists_of_run_bind run_eq
          rw [run_ask] at ask_eq
          split at ask_eq
          · cases ask_eq
            cases equal with
            | true =>
              cases run_eq
              exact Ty.instantiate_makesNew head_copied candidate_eq
            | false => exact later run_eq
          · cases ask_eq
        · exact later run_eq
      | _ => exact later run_eq
    · cases made_eq

variable {owner : DataRef Ty}

theorem closed_onlyMakes (before : World) :
    Closed fun {_} building => Maintains before.OnlyMakes building :=
  closed_maintains fun _ _ grows makes => ⟨makes.registry_eq, makes.grows.trans grows⟩

/-- Looking for a constructor makes references and changes nothing else. -/
theorem onlyMakes_of_constructorOf {outcome : Except Failure Ty}
    (run_eq : (constructorOf owner name fields).run.run world = (outcome, after)) :
    world.OnlyMakes after := by
  have makes := constructorOf_closed (closed_onlyMakes world) owner name fields (.refl world)
  rwa [run_eq] at makes

theorem onlyMakes_of_findConstructor {outcome : Except Failure (Option Ty)}
    (run_eq : (findConstructor bindings name fields constructors).run.run world =
      (outcome, after)) : world.OnlyMakes after := by
  have makes := findConstructor_closed (closed_onlyMakes world) bindings name fields constructors
    (.refl world)
  rwa [run_eq] at makes

theorem exists_of_constructorOf
    (constructors_eq : world.registry.constructorsOf world.store owner.name = some constructors)
    (run_eq : (constructorOf owner name fields).run.run world = (.ok type, after)) :
    ∃ bindings found middle, (findConstructor bindings name fields constructors).run.run world =
        (.ok found, middle) ∧
      (foundOr owner name fields found).run.run middle = (.ok type, after) := by
  rw [run_constructorOf, constructorIn] at run_eq
  obtain ⟨_, _, ask_eq, run_eq⟩ := exists_of_run_bind run_eq
  simp only [run_ask, constructors_eq] at ask_eq
  cases ask_eq
  obtain ⟨found, middle, find_eq, run_eq⟩ := exists_of_run_bind run_eq
  exact ⟨_, found, middle, find_eq, run_eq⟩

variable (constructors_eq : world.registry.constructorsOf world.store owner.name = some constructors)
  (run_eq : (constructorOf owner name fields).run.run world = (.ok type, after))

include constructors_eq run_eq

/-- Without parameters, a declared constructor which matches is shared. -/
theorem constructorOf_shares
    (plain : ∀ constructor ∈ constructors, constructor.owner.parameters = [])
    {constructor : Constructor Ty} (mem : constructor ∈ constructors)
    (matching : constructor.Matches world.store name fields) :
    ∃ first ∈ constructors, type = .constructor first ∧ first.Matches world.store name fields := by
  obtain ⟨bindings, found, middle, find_eq, run_eq⟩ := exists_of_constructorOf constructors_eq run_eq
  rw [findConstructor_eq_find? plain find_eq] at run_eq
  rcases first_eq : constructors.find? fun constructor =>
    constructor.Matches world.store name fields with _ | first
  · exact absurd matching (by simpa using List.find?_eq_none.mp first_eq constructor mem)
  · rw [first_eq] at run_eq
    cases run_eq
    exact ⟨first, List.mem_of_find?_eq_some first_eq, rfl,
      by simpa using List.find?_some first_eq⟩

/-- With parameters, the constructor is always new. -/
theorem not_hasMade_of_constructorOf
    (copied : ∀ constructor ∈ constructors, constructor.owner.parameters ≠ []) :
    ¬world.store.HasMade type := by
  obtain ⟨bindings, found, middle, find_eq, run_eq⟩ := exists_of_constructorOf constructors_eq run_eq
  cases found with
  | some found =>
    cases run_eq
    exact not_hasMade_of_findConstructor copied find_eq
  | none =>
    cases run_eq
    exact fun made => Nat.lt_irrefl _ (made.of_grows (onlyMakes_of_findConstructor find_eq).grows)

end Search

section Apart

/-- Whether the constructors of a name in the own layer can be told apart. -/
def Apart (world : World) (name : String) : Prop :=
  (world.registry.own.constructorsOf name).Pairwise world.store.TellsApart

/-- Constructors which can be told apart can be told apart later. -/
theorem Apart.later (apart : Apart world name) (carries : heap.Carries world)
    (grows : world.store.Grows after.store) (constructors_eq :
      after.registry.own.constructorsOf name = world.registry.own.constructorsOf name) :
    Apart after name := by
  have known (constructor : Constructor Ty)
      (mem : constructor ∈ world.registry.own.constructorsOf name) :
      heap.Known (.constructor constructor) :=
    carries.bears _ (List.mem_cons_self ..) mem
  rw [← carries.store_eq] at grows
  rw [Apart, constructors_eq]
  refine List.Pairwise.imp_of_mem (fun {left right} left_mem right_mem apart => ?_) apart
  rw [← carries.store_eq] at apart
  exact (Heap.sameConstructor_eq grows (known left left_mem) (known right right_mem)).trans apart

theorem Apart.of_continues (apart : Apart world name) (carries : heap.Carries world)
    {later : Heap} (growsTo : heap.GrowsTo later) (later_carries : later.Carries after)
    (continues : world.Continues resolve after) (fixes : world.Fixes resolve name) :
    Apart after name := by
  refine apart.later carries ?_ (continues.constructorsOf_eq fixes)
  rw [← carries.store_eq, ← later_carries.store_eq]
  exact growsTo.grows

theorem fieldsWithin_retains (carries : heap.Carries world) {symbols : List Symbol}
    {fields : List (Field Ty)}
    (run_eq : (fieldsWithin resolve depth symbols).run.run world = (.ok fields, after)) :
    ∃ later : Heap, heap.GrowsTo later ∧ later.Carries after ∧ world.Continues resolve after ∧
      ∀ field ∈ fields, later.Holds field.type := by
  obtain ⟨later, growsTo, carries, continues, alike, -⟩ :=
    fieldsWith_retraces carries (fun symbol _ => typeWithin_retraceable depth symbol) run_eq
  exact ⟨later, growsTo, carries, continues, (Heap.alikeFields_iff.mp alike).1⟩

/-- A constructor is added only if it can be told apart from all others of its data type. -/
theorem declareConstructor_apart {constructor : Constructor Ty}
    (inherited_eq : world.registry.inherited = [])
    (declared : world.registry.lookup? constructor.owner.name ≠ none)
    (apart : Apart world constructor.owner.name)
    (run_eq : (register (·.declareConstructor · constructor)).run.run world = (.ok (), after)) :
    Apart after constructor.owner.name := by
  rw [run_register] at run_eq
  split at run_eq
  case h_2 => cases run_eq
  next registry declare_eq =>
  cases run_eq
  obtain ⟨same, known, owner_eq, known_eq, added⟩ := Registry.declareConstructor_inv declare_eq
  obtain ⟨undeclared, -⟩ | ⟨-, rfl⟩ := Registry.declare_inv owner_eq
  · exact absurd undeclared declared
  rw [Registry.constructorsOf_of_inherited_eq inherited_eq, Option.some.injEq] at known_eq
  obtain ⟨-, rfl⟩ | ⟨unknown, rfl⟩ := added
  · exact apart
  · rw [Apart, Layer.constructorsOf_insert, if_pos rfl]
    refine List.pairwise_append.mpr ⟨apart, List.pairwise_singleton _ _, fun other mem last last_mem => ?_⟩
    obtain rfl := List.mem_singleton.mp last_mem
    exact Registry.isKnown_eq_false_iff.mp unknown other (known_eq ▸ mem)

/-- All constructors which are declared for a data type can be told apart. -/
theorem declareConstructors_apart {before : World} {owner : DataRef Ty}
    (inherited_eq : before.registry.inherited = []) (free : ¬before.Fixes resolve owner.name)
    (continues : before.Continues resolve world) (carries : heap.Carries world)
    (known : heap.Known (.dataRef owner)) (declared : world.registry.lookup? owner.name ≠ none)
    (apart : Apart world owner.name) {productions : List Production}
    (run_eq : (declareConstructors (fieldsWithin resolve depth) owner productions).run.run world =
      (.ok (), after)) : Apart after owner.name := by
  induction productions generalizing heap world with
  | nil =>
    cases run_eq
    exact apart
  | cons production productions ih =>
    rw [declareConstructors] at run_eq
    split at run_eq
    · next name _ =>
      obtain ⟨fields, first, fields_eq, run_eq⟩ := exists_of_run_bind run_eq
      obtain ⟨later, growsTo, later_carries, first_continues, hold⟩ :=
        fieldsWithin_retains carries fields_eq
      have fixes : world.Fixes resolve owner.name := .inl declared
      have apart := apart.of_continues carries growsTo later_carries first_continues fixes
      have declared : first.registry.lookup? owner.name ≠ none := by
        rwa [first_continues.lookup?_eq fixes]
      have continues := continues.trans first_continues
      -- The constructor is made and then declared.
      obtain ⟨wider, growsTo', wider_carries, constructor_known⟩ :=
        later_carries.exists_makeConstructor name (growsTo.known known) hold production.attributes
      obtain ⟨constructor, made, made_eq, run_eq⟩ := exists_of_run_bind run_eq
      rw [run_make, Making.run_newConstructor] at made_eq
      cases made_eq
      have apart : Apart { first with store := _ } owner.name := apart.later later_carries
        (.makeConstructor owner name fields production.attributes) rfl
      obtain ⟨_, second, register_eq, run_eq⟩ := exists_of_run_bind run_eq
      obtain ⟨last, growsTo'', last_carries, last_continues, -⟩ := declareConstructor_retains
        (continues.of_store _) free wider_carries constructor_known register_eq
      obtain ⟨type, lookup_eq⟩ := Option.ne_none_iff_exists'.mp declared
      have stays := (insertsOnce_register fun _ _ _ => Registry.declareConstructor_inserts).lookup?_eq
        register_eq lookup_eq
      refine ih last_continues last_carries
        (growsTo''.known (growsTo'.known (growsTo.known known))) (by simp [stays])
        (declareConstructor_apart ?_ ?_ ?_ register_eq) run_eq
      · exact continues.inherited_eq.trans inherited_eq
      · exact declared
      · exact apart
    · exact ih continues carries known declared apart run_eq

theorem exists_of_declareAlias {typeOf : Symbol → Building Ty} {formals : List Ty}
    {alternatives : OrderedSet Production} {type : Ty}
    (run_eq : (declareAlias typeOf name formals alternatives).run.run world = (.ok type, after)) :
    ∃ reference, type = .aliasRef reference := by
  rw [declareAlias_eq] at run_eq
  obtain ⟨reference, _, -, run_eq⟩ := exists_of_run_bind run_eq
  obtain ⟨_, _, -, run_eq⟩ := exists_of_run_bind run_eq
  obtain ⟨_, _, -, run_eq⟩ := exists_of_run_bind run_eq
  obtain ⟨_, _, -, run_eq⟩ := exists_of_run_bind run_eq
  cases run_eq
  exact ⟨reference, rfl⟩

/-- The constructors of a name which is declared without formal parameters can be told apart. -/
theorem declareFor_apart (carries : heap.Carries world) (free : ¬world.Fixes resolve name)
    (inherited_eq : world.registry.inherited = [])
    (none : world.registry.own.constructorsOf name = []) (single : ¬ReachesItself resolve name)
    {type : Ty} (owned : Owned resolve after)
    (run_eq : (declareFor resolve depth name []).run.run world = (.ok type, after)) :
    Apart after name := by
  have undeclared : world.registry.lookup? name = Option.none :=
    not_not.mp fun declared => free (.inl declared)
  have lookup_eq := (declareFor_returns run_eq).2 undeclared
  unfold declareFor at run_eq
  split at run_eq
  · obtain ⟨reference, rfl⟩ := exists_of_declareAlias run_eq
    have no_constructor : after.registry.own.constructorsOf name = [] :=
      List.eq_nil_iff_forall_not_mem.mpr fun constructor mem => by
        have owner_eq := owned.lookup?_eq single constructor mem
        rw [lookup_eq] at owner_eq
        cases owner_eq
    rw [Apart, no_constructor]
    exact .nil
  · rw [declareData] at run_eq
    obtain ⟨wider, growsTo, wider_carries, known⟩ :=
      carries.exists_makeData (List.forall_mem_nil _) name
    obtain ⟨reference, made, made_eq, run_eq⟩ := exists_of_run_bind run_eq
    rw [run_make, Making.run_newData] at made_eq
    cases made_eq
    obtain ⟨_, opened, register_eq, run_eq⟩ := exists_of_run_bind run_eq
    rw [run_register, Registry.declare_of_undeclared undeclared] at register_eq
    cases register_eq
    obtain ⟨_, last, constructors_eq, run_eq⟩ := exists_of_run_bind run_eq
    cases run_eq
    refine declareConstructors_apart inherited_eq free
      (World.Continues.declare ((World.Continues.refl world).of_store _) free _)
      (wider_carries.declare ((Heap.holds_dataRef _).mpr known) rfl) known ?_ ?_ constructors_eq
    · simp [Registry.lookup?_insert, Store.makeData]
    · change List.Pairwise _ (world.registry.own.constructorsOf name)
      rw [none]
      exact .nil

theorem not_reachesItself (plain : formalsOf resolve name = []) : ¬ReachesItself resolve name := by
  rintro ⟨formal, mem, -⟩
  simp [plain] at mem

/-- After a reference without actual parameters to a name without formal ones, the constructors of the
name can be told apart. -/
theorem typeWithin_apart {owner : Symbol} (leaf_eq : owner.withoutLabels = .dataRef name [])
    (plain : formalsOf resolve name = []) {type : Ty}
    (run_eq : (typeWithin resolve depth owner).run.run {} = (.ok type, after)) :
    Apart after name := by
  obtain ⟨heap, carries⟩ := exists_carries_fresh
  have owned := typeWithin_owned depth owner (owned_fresh resolve)
  rw [run_eq] at owned
  have single := not_reachesItself plain
  rw [typeWithin, typeWith_dataLeaf leaf_eq, typesWith, pure_bind] at run_eq
  cases first_eq : (resolve name).first? with
  | none =>
    rw [run_namedWith_unknown rfl first_eq] at run_eq
    cases run_eq
    exact .nil
  | some production =>
    rw [run_namedWith_expanded rfl first_eq] at run_eq
    obtain ⟨declared, last, expand_eq, run_eq⟩ := exists_of_run_bind run_eq
    cases run_eq
    cases depth with
    | zero => cases expand_eq
    | succ depth =>
      rw [expandWithin_eq first_eq, plain, typesWithin, typesWith, pure_bind] at expand_eq
      refine declareFor_apart carries ?_ rfl rfl single owned expand_eq
      rintro (declared | no_alternative)
      · exact declared rfl
      · simp [first_eq] at no_alternative

end Apart

section Parts

variable {owner : Symbol} {parameters fields : List Symbol} {reference : DataRef Ty}
  {types : List (Field Ty)}

/-- The data type and the fields of a constructor with at most `depth` expansions nested. -/
def partsWithin (resolve : Resolver) (depth : Nat) (owner : Symbol) (fields : List Symbol) :
    Building (DataRef Ty × List (Field Ty)) := do
  let reference ← ownerOf (← typeWithin resolve depth owner)
  return (reference, ← fieldsWithin resolve depth fields)

theorem typeWithin_constructor (resolve : Resolver) (depth : Nat) (owner : Symbol) (name : String)
    (fields : List Symbol) : typeWithin resolve depth (.constructor owner name fields) =
      partsWithin resolve depth owner fields >>= fun parts => constructorOf parts.1 name parts.2 := by
  simp only [typeWithin, typeWith, partsWithin, fieldsWithin, bind_assoc, pure_bind]

/-- The parts of a constructor whose owner refers to a name. -/
theorem partsWithin_inv (leaf_eq : owner.withoutLabels = .dataRef name parameters)
    (run_eq : (partsWithin resolve depth owner fields).run.run {} =
      (.ok (reference, types), after)) :
    ∃ later : Heap, later.Carries after ∧ reference.name = name ∧
      (∀ field ∈ types, later.Holds field.type) ∧
      (parameters = [] → formalsOf resolve name = [] → Apart after name) := by
  obtain ⟨fresh, fresh_carries⟩ := exists_carries_fresh
  rw [partsWithin] at run_eq
  obtain ⟨type, first, type_eq, run_eq⟩ := exists_of_run_bind run_eq
  obtain ⟨_, second, owner_eq, run_eq⟩ := exists_of_run_bind run_eq
  obtain ⟨_, third, fields_eq, run_eq⟩ := exists_of_run_bind run_eq
  cases run_eq
  have apart (none : parameters = []) (plain : formalsOf resolve name = []) : Apart first name :=
    typeWithin_apart (none ▸ leaf_eq) plain type_eq
  obtain ⟨heap, -, carries, holds⟩ := typeWithin_retains fresh_carries type_eq
  obtain ⟨refersTo, fixes⟩ : type.RefersTo name ∧ first.Fixes resolve name := by
    rw [typeWithin, typeWith_dataLeaf leaf_eq] at type_eq
    obtain ⟨actuals, _, actuals_eq, named_eq⟩ := exists_of_run_bind type_eq
    obtain ⟨_, -, carries, hold⟩ := typesWithin_retains fresh_carries actuals_eq
    exact namedWith_fixes (expandWithin_declares depth) carries hold named_eq
  obtain ⟨later, growsTo, later_carries, continues, owners, -⟩ : ∃ later : Heap,
      heap.GrowsTo later ∧ later.Carries second ∧ first.Continues resolve second ∧ _ :=
    ownerOf_retraces carries holds owner_eq
  obtain ⟨last, growsTo', last_carries, continues', hold⟩ :=
    fieldsWithin_retains later_carries fields_eq
  refine ⟨last, last_carries, ?_, hold, fun none plain => ?_⟩
  · rw [owners.1, refersTo.name?_eq]
    rfl
  · exact (apart none plain).of_continues carries (growsTo.trans growsTo') last_carries
      (continues.trans continues') fixes

/-- Matching constructors of a data type are equal. -/
theorem alike_of_matches {store : Store} {left right : Constructor Ty} (store_eq : heap.store = store)
    (left_known : heap.Known (.constructor left)) (right_known : heap.Known (.constructor right))
    (hold : ∀ field ∈ types, heap.Holds field.type) (owner_eq : left.owner = right.owner)
    (left_matches : left.Matches store name types) (right_matches : right.Matches store name types) :
    heap.Alike (.constructor left) (.constructor right) := by
  subst store_eq
  have fields_alike {constructor : Constructor Ty} (known : heap.Known (.constructor constructor))
      (matching : constructor.Matches heap.store name types) :
      heap.Alike (.tuple constructor.fields) (.tuple types) :=
    ⟨(Heap.holds_tuple _).mpr fun _ => Heap.holds_of_mem_fields known, (Heap.holds_tuple _).mpr hold,
      matching.2⟩
  have alike := (fields_alike left_known left_matches).trans (fields_alike right_known right_matches).symm
  obtain ⟨_, ⟨⟩, alike⟩ := Heap.alike_tuple_iff.mp alike
  refine .constructor left_known right_known (left_matches.1.trans right_matches.1.symm) ?_ alike
  rw [owner_eq]
  exact .refl ((Heap.holds_dataRef _).mpr (Heap.known_owner right_known))

section Found

variable {constructors : List (Constructor Ty)} {constructor : Constructor Ty} {type : Ty}
  (carries : heap.Carries world) (known : ∀ other ∈ constructors, heap.Known (.constructor other))
  (constructors_eq : world.registry.constructorsOf world.store reference.name = some constructors)
  (run_eq : (constructorOf reference name types).run.run world = (.ok type, after))
  (mem : constructor ∈ constructors)

include carries known constructors_eq run_eq mem

/-- With parameters, what is found is none of the declared constructors. -/
theorem constructorOf_returns_other
    (copied : ∀ other ∈ constructors, other.owner.parameters ≠ []) :
    type.isSameObject (.constructor constructor) = false := by
  have made : world.store.HasMade (.constructor constructor) :=
    carries.store_eq ▸ heap.made (known constructor mem)
  refine Bool.eq_false_iff.mpr fun same => not_hasMade_of_constructorOf constructors_eq run_eq copied ?_
  rw [Ty.isSameObject_comm] at same
  exact made.of_isSameObject same

/-- Without parameters, the one declared constructor which matches is found. -/
theorem constructorOf_returns (plain : ∀ other ∈ constructors, other.owner.parameters = [])
    (owner_eq : ∀ other ∈ constructors, other.owner = constructor.owner)
    (apart : constructors.Pairwise world.store.TellsApart)
    (hold : ∀ field ∈ types, heap.Holds field.type)
    (matching : constructor.Matches world.store name types) : type = .constructor constructor := by
  obtain ⟨first, first_mem, rfl, first_matching⟩ :=
    constructorOf_shares constructors_eq run_eq plain mem matching
  by_contra distinct
  have told : world.store.TellsApart first constructor :=
    apart.forall first_mem mem fun equal => distinct (congrArg Ty.constructor equal)
  have alike := alike_of_matches carries.store_eq (known first first_mem) (known constructor mem) hold
    (owner_eq first first_mem) first_matching matching
  have equal := alike.equal
  rw [carries.store_eq] at equal
  cases equal.symm.trans told

end Found

namespace Owned

variable (owned : Owned resolve world) {constructor other : Constructor Ty}
  (mem : constructor ∈ world.registry.own.constructorsOf name)

include owned mem

/-- A data type has no parameters just if its name has no formal ones. -/
theorem parameters_eq_nil_iff : constructor.owner.parameters = [] ↔ formalsOf resolve name = [] := by
  rw [← List.length_eq_zero_iff, owned.length_eq constructor mem, List.length_eq_zero_iff]

theorem owner_eq (single : ¬ReachesItself resolve name)
    (other_mem : other ∈ world.registry.own.constructorsOf name) : other.owner = constructor.owner := by
  have lookup_eq := (owned.lookup?_eq single other other_mem).symm.trans
    (owned.lookup?_eq single constructor mem)
  simpa using lookup_eq

end Owned

theorem Owned.of_onlyMakes (makes : world.OnlyMakes after) (owned : Owned resolve after) :
    Owned resolve world :=
  ⟨makes.registry_eq ▸ owned.length_eq, makes.registry_eq ▸ owned.lookup?_eq⟩

/-- Actual parameters which equal no formal ones are missing. -/
theorem parameters_eq_nil_of_formal {parameters : List Symbol} {actuals : List Ty} {middle : World}
    {store : Store} (actuals_eq : (typesWithin resolve depth parameters).run.run world =
      (.ok actuals, middle)) (formal : store.sameAll actuals [] = some true) : parameters = [] := by
  cases actuals with
  | nil => exact List.length_eq_zero_iff.mp (length_of_typesWithin actuals_eq).symm
  | cons => cases formal

/-- A constructor symbol, the owner of which refers to a data type without actual parameters or with
actual parameters which equal the formal ones, is reconstructed into a fresh registry.  If a
constructor of the data type has the name and the fields of the symbol then, the result is this very
constructor just if the data type has no parameters. -/
theorem reconstruct_constructor_object {definitions : Definitions} {label : String}
    (leaf_eq : owner.withoutLabels = .dataRef name parameters) {type : Ty}
    (run_eq : (Reified.reconstruct ⟨.constructor owner label fields, definitions⟩).run.run {} =
      (.ok type, after))
    (formal : parameters = [] ∨ ∃ actuals middle declared,
      (typesWithin definitions.alternativesOf (maxDepth definitions) parameters).run.run {} =
        (.ok actuals, middle) ∧ after.registry.lookup? name = some declared ∧
          after.store.sameAll actuals declared.parameters = some true)
    (parts_eq : (partsWithin definitions.alternativesOf (maxDepth definitions) owner fields).run.run {} =
      (.ok (reference, types), world)) {constructors : List (Constructor Ty)}
    (constructors_eq : after.registry.constructorsOf after.store name = some constructors)
    {constructor : Constructor Ty} (mem : constructor ∈ constructors)
    (matching : constructor.Matches after.store label types) :
    type.isSameObject (.constructor constructor) = true ↔ constructor.owner.parameters = [] := by
  rw [Reified.reconstruct, typeOf] at run_eq
  have owned := typeWithin_owned (maxDepth definitions) (.constructor owner label fields)
    (owned_fresh definitions.alternativesOf)
  have inherited_eq := (typeWithin_preserves (maxDepth definitions) (.constructor owner label fields)
    (.refl {} : World.Preserves definitions.alternativesOf _ _)).inherited_eq
  rw [run_eq] at owned inherited_eq
  dsimp only at owned inherited_eq
  rw [Registry.constructorsOf_of_inherited_eq inherited_eq, Option.some.injEq] at constructors_eq
  subst constructors_eq
  -- The constructor is looked for among the constructors which there are in the end.
  rw [typeWithin_constructor] at run_eq
  obtain ⟨_, _, parts_eq', run_eq⟩ := exists_of_run_bind run_eq
  rw [parts_eq] at parts_eq'
  cases parts_eq'
  obtain ⟨heap, carries, rfl, hold, apart⟩ := partsWithin_inv leaf_eq parts_eq
  have makes := onlyMakes_of_constructorOf run_eq
  have owned := owned.of_onlyMakes makes
  rw [makes.registry_eq] at inherited_eq mem
  have constructors_eq :=
    Registry.constructorsOf_of_inherited_eq inherited_eq world.store reference.name
  have known (other : Constructor Ty)
      (mem : other ∈ world.registry.own.constructorsOf reference.name) :
      heap.Known (.constructor other) :=
    carries.bears _ (List.mem_cons_self ..) mem
  have no_parameter_iff (other : Constructor Ty)
      (other_mem : other ∈ world.registry.own.constructorsOf reference.name) :
      other.owner.parameters = [] ↔ constructor.owner.parameters = [] :=
    (owned.parameters_eq_nil_iff other_mem).trans (owned.parameters_eq_nil_iff mem).symm
  refine ⟨fun same => not_not.mp fun some_parameter => ?_, fun plain => ?_⟩
  · rw [constructorOf_returns_other carries known constructors_eq run_eq mem fun other other_mem none =>
      some_parameter ((no_parameter_iff other other_mem).mp none)] at same
    cases same
  · have no_formal := (owned.parameters_eq_nil_iff mem).mp plain
    have single := not_reachesItself no_formal
    have no_actual : parameters = [] := by
      obtain none | ⟨actuals, middle, declared, actuals_eq, lookup_eq, equal⟩ := formal
      · exact none
      · rw [makes.registry_eq, owned.lookup?_eq single constructor mem] at lookup_eq
        cases lookup_eq
        rw [Ty.parameters, plain] at equal
        exact parameters_eq_nil_of_formal actuals_eq equal
    have matching := matching.of_grows (carries.store_eq ▸ makes.grows) (known constructor mem) hold
    rw [carries.store_eq] at matching
    rw [constructorOf_returns carries known constructors_eq run_eq mem
      (fun other other_mem => (no_parameter_iff other other_mem).mpr plain)
      (fun other other_mem => owned.owner_eq mem single other_mem) (apart no_actual no_formal) hold
      matching]
    simp [Ty.isSameObject]

end Parts

namespace Shop

def customer : DataRef Ty := ⟨0, "Customer", []⟩

def order : DataRef Ty := ⟨1, "Order", [.parameter "T" (.dataRef customer)]⟩

def customerConstructor : Constructor Ty :=
  ⟨3, customer, "customer", [⟨none, .list (.dataRef order)⟩], .ofList []⟩

def customerReified : Reified :=
  ⟨.constructor (.dataRef "Customer" []) "customer" [.list (.dataRef "Order" [])], orders⟩

/-- The world after the reconstruction of the constructor of customers. -/
def registered : World := (customerReified.reconstruct.run.run {}).2

theorem registered_evaluates :
    ((customerReified.reconstruct.run.run {}).1,
        registered.registry.constructorsOf registered.store "Customer") =
      (.ok (.constructor customerConstructor), some [customerConstructor]) := rfl

theorem customer_eq :
    customerReified.reconstruct.run.run {} = (.ok (.constructor customerConstructor), registered) := by
  rw [← (Prod.mk.inj registered_evaluates).1, registered, Prod.mk.eta]

theorem constructorsOf_customer :
    registered.registry.constructorsOf registered.store "Customer" = some [customerConstructor] :=
  (Prod.mk.inj registered_evaluates).2

theorem customer_matches :
    customerConstructor.Matches registered.store "customer" customerConstructor.fields := by
  decide

theorem customer_same_object : customerConstructor.owner.parameters = [] ∧
    (Ty.constructor customerConstructor).isSameObject (.constructor customerConstructor) = true :=
  ⟨rfl, (reconstruct_constructor_object rfl customer_eq (.inl rfl) rfl constructorsOf_customer
    (List.mem_singleton_self _) customer_matches).mpr rfl⟩

def leaf : Constructor Ty :=
  ⟨1, tree, "leaf", [⟨none, .parameter "T" (.prim .value)⟩], .ofList []⟩

/-- The leaf which is returned is not the declared one. -/
theorem leaf_other_object : ∃ type after constructors,
    (Reified.reconstruct
      ⟨.constructor (.dataRef "Tree" [element]) "leaf" [element], trees⟩).run.run {} =
        (.ok type, after) ∧
    after.registry.constructorsOf after.store "Tree" = some constructors ∧ leaf ∈ constructors ∧
    leaf.Matches after.store "leaf" [⟨none, .parameter "T" (.prim .value)⟩] ∧
    type.isSameObject (.constructor leaf) = false :=
  ⟨_, _, _, rfl, rfl, List.mem_cons_self .., ⟨rfl, by decide⟩, rfl⟩

end Shop

end Reconstruct

end Reification
