import Reification.Proofs.Closure
import Reification.Proofs.Coverage
import Reification.Proofs.Tidy

/-!
# Accounts of declarations

For each name which is declared on the way, an account can be given of what it is declared as: which
constructors have been made from its named alternatives, or which type has been reconstructed for its
body.  Whatever is met later leaves this alone, since a name is expanded only once.

Formal parameters are supposed to mention no names here, so that a name is not declared within its
own expansion.
-/

namespace Reification.Reconstruct

variable {resolve : Resolver} {sorts exempt : String → Prop} {world before middle after : World}
  {name : String} {depth : Nat} {α β : Type}

/-- Whether a constructor of a declared data type, with the store in which it is compared with others,
is made from an alternative: on the way to a world, its fields have been reconstructed. -/
def Offers (resolve : Resolver) (owner : DataRef Ty) (final : World) (production : Production)
    (offered : Constructor Ty × Store) : Prop :=
  ∃ name depth start fields middle, production.name = some name ∧
    start.registry.lookup? owner.name = some (.dataRef owner) ∧
    (fieldsWithin resolve depth production.symbols).run.run start = (.ok fields, middle) ∧
    middle.Retains final ∧
    offered = middle.store.makeConstructor owner name fields production.attributes

/-- Whether a type is the body of an alias: it has been reconstructed from the symbol of the body on
the way to a world, or there is no such symbol. -/
def Embodies (resolve : Resolver) (final : World) (name : String) (body : Ty) : Prop :=
  match bodySymbol? (resolve name) with
  | some symbol => ∃ depth start middle, start.registry.lookup? name ≠ none ∧
      (typeWithin resolve depth symbol).run.run start = (.ok body, middle) ∧ middle.Retains final
  | none => body = .prim .value

/-- The constructors which are left of some offered ones after some known ones: one which equals an
earlier one is dropped. -/
def settle (known : List (Constructor Ty)) (offered : List (Constructor Ty × Store)) :
    Option (List (Constructor Ty)) :=
  offered.foldlM (fun known (constructor, store) => Registry.addUnknown store known constructor) known

/-- Whether there is an account of what a name is declared as. -/
structure Accounted (resolve : Resolver) (world : World) (name : String) : Prop where
  data : ∀ ⦃reference⦄, world.registry.lookup? name = some (.dataRef reference) →
    ∃ offered, List.Forall₂ (Offers resolve reference world)
        ((resolve name).toList.filter (·.name.isSome)) offered ∧
      settle [] offered = some (world.registry.own.constructorsOf name)
  alias_ : ∀ ⦃reference⦄, world.registry.lookup? name = some (.aliasRef reference) →
    ∃ body, world.store.body? reference = some body ∧ Embodies resolve world name body

/-- Whether a registry has constructors only of declared names, and all rules of a nonterminal of
which it has any. -/
structure Orderly (resolve : Resolver) (world : World) : Prop where
  inherited_eq : world.registry.inherited = []
  vacant : ∀ ⦃name⦄, world.registry.lookup? name = none →
    world.registry.own.constructorsOf name = []
  rules_eq : ∀ ⦃name⦄, world.registry.own.rules.get? name ≠ none →
    (resolve name).first? ≠ none ∧ world.registry.own.rules.alternativesOf name = resolve name

/-- A world in which some more names have been declared, with an account of each, and the rules of
some nonterminals have been added.  What was declared before is left alone, apart from the
constructors of a name which is exempt. -/
structure Accounts (resolve : Resolver) (sorts exempt : String → Prop) (before after : World) :
    Prop where
  retains : before.Retains after
  orderly : Orderly resolve after
  constructors_eq : ∀ ⦃name⦄, before.registry.lookup? name ≠ none → ¬exempt name →
    after.registry.own.constructorsOf name = before.registry.own.constructorsOf name
  bodies_eq : ∀ ⦃reference body⦄, before.store.body? reference = some body →
    after.store.body? reference = some body
  accounted : ∀ ⦃name⦄, before.registry.lookup? name = none → after.registry.lookup? name ≠ none →
    Accounted resolve after name
  rules_of_new : ∀ ⦃name⦄, after.registry.own.rules.get? name ≠ none →
    before.registry.own.rules.get? name ≠ none ∨ sorts name

theorem Offers.mono {owner : DataRef Ty} {production : Production}
    {offered : Constructor Ty × Store} (offers : Offers resolve owner before production offered)
    (retains : before.Retains after) : Offers resolve owner after production offered := by
  obtain ⟨name, depth, start, fields, middle, name_eq, declared, run_eq, later, rest⟩ := offers
  exact ⟨name, depth, start, fields, middle, name_eq, declared, run_eq, later.trans retains, rest⟩

theorem Embodies.mono {body : Ty} (embodies : Embodies resolve before name body)
    (retains : before.Retains after) : Embodies resolve after name body := by
  unfold Embodies at embodies ⊢
  split at embodies
  · obtain ⟨depth, start, middle, declared, run_eq, later⟩ := embodies
    exact ⟨depth, start, middle, declared, run_eq, later.trans retains⟩
  · exact embodies

namespace Accounts

theorem refl (orderly : Orderly resolve world) : Accounts resolve sorts exempt world world :=
  ⟨.refl world, orderly, fun _ _ _ => rfl, fun _ _ => id,
    fun _ undeclared declared => absurd undeclared declared, fun _ => .inl⟩

theorem lookup?_eq (accounts : Accounts resolve sorts exempt before after) {type : Ty}
    (declared : before.registry.lookup? name = some type) :
    after.registry.lookup? name = some type := accounts.retains.lookup?_eq declared

end Accounts

/-- An account of a declared name is kept by what follows. -/
theorem Accounted.mono (accounted : Accounted resolve before name)
    (declared : before.registry.lookup? name ≠ none) (not_exempt : ¬exempt name)
    (accounts : Accounts resolve sorts exempt before after) : Accounted resolve after name := by
  obtain ⟨type, lookup_eq⟩ := Option.ne_none_iff_exists'.mp declared
  refine ⟨fun reference later_eq => ?_, fun reference later_eq => ?_⟩
  · obtain rfl := Option.some.inj ((accounts.lookup?_eq lookup_eq).symm.trans later_eq)
    obtain ⟨offered, offers, settle_eq⟩ := accounted.data lookup_eq
    refine ⟨offered, offers.imp fun _ _ offer => offer.mono accounts.retains, ?_⟩
    rw [settle_eq, accounts.constructors_eq declared not_exempt]
  · obtain rfl := Option.some.inj ((accounts.lookup?_eq lookup_eq).symm.trans later_eq)
    obtain ⟨body, body_eq, embodies⟩ := accounted.alias_ lookup_eq
    exact ⟨body, accounts.bodies_eq body_eq, embodies.mono accounts.retains⟩

namespace Accounts

/-- Names which are exempt in a sequence of steps are declared before. -/
theorem trans (first : Accounts resolve sorts exempt before middle)
    (second : Accounts resolve sorts exempt middle after)
    (exempt_declared : ∀ name, exempt name → before.registry.lookup? name ≠ none) :
    Accounts resolve sorts exempt before after where
  retains := first.retains.trans second.retains
  orderly := second.orderly
  constructors_eq _ declared not_exempt :=
    (second.constructors_eq (first.retains.declared declared) not_exempt).trans
      (first.constructors_eq declared not_exempt)
  bodies_eq _ _ known := second.bodies_eq (first.bodies_eq known)
  accounted name undeclared declared := by
    by_cases middle_eq : middle.registry.lookup? name = none
    · exact second.accounted middle_eq declared
    · exact (first.accounted undeclared middle_eq).mono middle_eq
        (fun is_exempt => exempt_declared name is_exempt undeclared) second
  rules_of_new _ some_rule := (second.rules_of_new some_rule).elim (first.rules_of_new ·) .inr

theorem mono {wider : String → Prop} (accounts : Accounts resolve sorts exempt before after)
    (le : ∀ name, exempt name → wider name) : Accounts resolve sorts wider before after :=
  ⟨accounts.retains, accounts.orderly, fun _ declared not_wider =>
    accounts.constructors_eq declared fun is_exempt => not_wider (le _ is_exempt),
    accounts.bodies_eq, accounts.accounted, accounts.rules_of_new⟩

/-- Making references changes nothing which is declared. -/
theorem of_grows {store : Store} (orderly : Orderly resolve world)
    (grows : world.store.Grows store) : Accounts resolve sorts exempt world { world with store } where
  retains := .of_store fun reference known => by
    obtain ⟨body, body_eq⟩ := Option.ne_none_iff_exists'.mp known
    rw [grows.body?_eq (Store.lt_size_of_body? body_eq), body_eq]
    exact nofun
  orderly := ⟨orderly.inherited_eq, orderly.vacant, orderly.rules_eq⟩
  constructors_eq _ _ _ := rfl
  bodies_eq reference body body_eq :=
    (grows.body?_eq (Store.lt_size_of_body? body_eq)).trans body_eq
  accounted _ undeclared declared := absurd undeclared declared
  rules_of_new _ := .inl

end Accounts

/-- Whether a computation leaves an account of what it declares, as far as it ends. -/
def GivesAccount (resolve : Resolver) (sorts : String → Prop) (building : Building α) : Prop :=
  ∀ world, Orderly resolve world → building.Meets world
    (fun _ after => Accounts resolve sorts (fun _ => False) world after) fun _ _ => True

theorem closed_givesAccount :
    Building.Closed fun {_} building => GivesAccount resolve sorts building where
  pure _ _ orderly := .refl orderly
  throw _ _ _ := trivial
  get _ orderly := .refl orderly
  make keeps world orderly := by
    refine Building.meets_make.mpr ?_
    split
    · next run_eq => exact .of_grows orderly (keeps run_eq)
    · trivial
  bind first second world orderly := by
    refine Building.Meets.bind (first world orderly) (fun result middle accounts => ?_)
      fun _ _ => id
    exact (second result middle accounts.orderly).mono
      (fun _ _ later => accounts.trans later fun _ => False.elim) fun _ _ => id

/-- The rules of a nonterminal are added as a whole, however often it is met. -/
theorem sortWith_givesAccount (mem : sorts name) :
    GivesAccount resolve sorts (sortWith resolve name) := by
  intro world orderly
  unfold sortWith
  split
  · next rule first_eq =>
    have get?_eq (other : String) : (world.registry.addRules name rule.subject
        (resolve name).toList).own.rules.get? other ≠ none →
          other = name ∨ world.registry.own.rules.get? other ≠ none := by
      simp only [Registry.addRules, Definitions.addAlternatives, Table.get?_insert]
      split
      · next same => exact fun _ => .inl same
      · exact .inr
    have alternatives_eq : ((world.registry.own.rules.alternativesOf name).insertAll
        (resolve name).toList) = resolve name := by
      refine OrderedSet.ext fun production => ?_
      rw [OrderedSet.mem_insertAll, OrderedSet.mem_toList]
      by_cases some_rule : world.registry.own.rules.get? name = none
      · rw [Definitions.alternativesOf, some_rule]
        exact or_iff_right List.not_mem_nil
      · rw [(orderly.rules_eq some_rule).2, or_self]
    refine Building.meets_register.mpr ⟨.of_registry rfl rfl, ⟨orderly.inherited_eq, orderly.vacant,
      fun other some_rule => ?_⟩, fun _ _ _ => rfl, fun _ _ => id,
      fun _ undeclared declared => absurd undeclared declared, fun other some_rule =>
        (get?_eq other some_rule).elim (fun same => .inr (same ▸ mem)) .inl⟩
    rw [Registry.addRules, Definitions.alternativesOf_addAlternatives]
    by_cases same : other = name
    · subst same
      rw [if_pos rfl]
      exact ⟨by simp [first_eq], alternatives_eq⟩
    · rw [if_neg same]
      exact orderly.rules_eq ((get?_eq other some_rule).resolve_left same)
  · exact .refl orderly

theorem namedWith_givesAccount {expand : String → Symbol → Building Ty}
    (expands : ∀ production world, (resolve name).first? = some production →
      Orderly resolve world → world.registry.lookup? name = none →
        (expand name production.subject).Meets world
          (fun _ after => Accounts resolve sorts (fun _ => False) world after) fun _ _ => True)
    (actuals : List Ty) : GivesAccount resolve sorts (namedWith resolve expand name actuals) := by
  intro world orderly
  refine Building.meets_bind.mpr (Building.meets_get.mpr ?_)
  split
  · exact applied_closed closed_givesAccount _ _ world orderly
  · next undeclared =>
    split
    · next production first_eq =>
      refine Building.Meets.bind (expands production world first_eq orderly undeclared)
        (fun declared middle accounts => ?_) fun _ _ => id
      exact (applied_closed closed_givesAccount declared actuals middle accounts.orderly).mono
        (fun _ _ later => accounts.trans later fun _ => False.elim) fun _ _ => id
    · exact closed_givesAccount.bind (closed_givesAccount.make (Making.keeps_newData _ _))
        (fun _ => closed_givesAccount.pure _) world orderly

section Data

variable {owner : DataRef Ty}

/-- A constructor is compared with the others of its data type in the store in which it was made. -/
theorem declareConstructor_accounts (sorts : String → Prop) {constructor : Constructor Ty}
    (orderly : Orderly resolve world)
    (declared_eq : world.registry.lookup? constructor.owner.name =
      some (.dataRef constructor.owner)) :
    (Building.register (·.declareConstructor · constructor)).Meets world
      (fun _ after => Accounts resolve sorts (· = constructor.owner.name) world after ∧
        Registry.addUnknown world.store
          (world.registry.own.constructorsOf constructor.owner.name) constructor =
            some (after.registry.own.constructorsOf constructor.owner.name))
      fun _ _ => True := by
  refine Building.meets_register.mpr ?_
  rw [Registry.declareConstructor_eq, Registry.declare_self declared_eq]
  simp only [Registry.constructorsOf_of_inherited_eq orderly.inherited_eq]
  rcases known_eq : Registry.isKnown world.store
    (world.registry.own.constructorsOf constructor.owner.name) constructor with _ | _ | _
  · trivial
  · have constructors_eq (other : String) := Layer.constructorsOf_insert world.registry.own
      constructor.owner.name other
        (world.registry.own.constructorsOf constructor.owner.name ++ [constructor])
    refine ⟨⟨.of_registry rfl rfl, ⟨orderly.inherited_eq, fun other undeclared => ?_,
      orderly.rules_eq⟩, fun other _ not_owner => ?_, fun _ _ => id,
      fun _ undeclared declared => absurd undeclared declared, fun _ => .inl⟩, ?_⟩
    · rw [constructors_eq, if_neg]
      · exact orderly.vacant undeclared
      · rintro rfl
        cases undeclared.symm.trans declared_eq
    · exact (constructors_eq other).trans (if_neg not_owner)
    · rw [constructors_eq, if_pos rfl, Registry.addUnknown, known_eq]
      rfl
  · refine ⟨.refl orderly, ?_⟩
    rw [Registry.addUnknown, known_eq]
    rfl

/-- The constructors of a declared data type are made from its named alternatives. -/
theorem declareConstructors_accounts {productions : List Production}
    (orderly : Orderly resolve world)
    (declared_eq : world.registry.lookup? owner.name = some (.dataRef owner))
    (fields : ∀ production ∈ productions, production.name.isSome = true →
      GivesAccount resolve sorts (fieldsWithin resolve depth production.symbols)) :
    (declareConstructors (fieldsWithin resolve depth) owner productions).Meets world
      (fun _ after => Accounts resolve sorts (· = owner.name) world after ∧
        ∃ offered, List.Forall₂ (Offers resolve owner after)
            (productions.filter (·.name.isSome)) offered ∧
          settle (world.registry.own.constructorsOf owner.name) offered =
            some (after.registry.own.constructorsOf owner.name))
      fun _ _ => True := by
  induction productions generalizing world with
  | nil => exact ⟨.refl orderly, [], .nil, rfl⟩
  | cons production productions ih =>
    obtain ⟨head_fields, tail_fields⟩ := List.forall_mem_cons.mp fields
    simp only [declareConstructors]
    rcases name_eq : production.name with _ | name
    · rw [List.filter_cons_of_neg (by simp [name_eq])]
      exact ih orderly declared_eq tail_fields
    · rw [List.filter_cons_of_pos (by simp [name_eq])]
      refine Building.meets_bind_of_runs (fun results middle run_eq => ?_) fun _ _ _ => trivial
      have first : Accounts resolve sorts (fun _ => False) world middle :=
        (Building.meets_iff_of_run_eq_ok run_eq).mp
          (head_fields (by simp [name_eq]) world orderly)
      refine Building.meets_bind.mpr (Building.meets_make.mpr ?_)
      rw [Making.run_newConstructor]
      have made : Accounts resolve sorts (fun _ => False) middle { middle with
          store := (middle.store.makeConstructor owner name results production.attributes).2 } :=
        .of_grows first.orderly (.makeConstructor _ _ _ _)
      have reached := first.trans made fun _ => False.elim
      refine Building.Meets.bind (declareConstructor_accounts sorts reached.orderly
        (reached.lookup?_eq declared_eq)) ?_ fun _ _ => id
      rintro _ added ⟨second, added_eq⟩
      refine (ih second.orderly ((reached.retains.trans second.retains).lookup?_eq declared_eq)
        tail_fields).mono ?_ fun _ _ => id
      rintro _ after ⟨rest, offered, offers, settle_eq⟩
      have is_declared (other : String) (same : other = owner.name) :
          world.registry.lookup? other ≠ none := by
        rw [same, declared_eq]
        exact Option.some_ne_none _
      have known_eq := reached.constructors_eq (is_declared owner.name rfl) id
      refine ⟨((reached.mono fun _ => False.elim).trans second is_declared).trans rest is_declared,
        middle.store.makeConstructor owner name results production.attributes :: offered,
        .cons ⟨name, depth, world, results, middle, name_eq, declared_eq, run_eq,
          (made.retains.trans second.retains).trans rest.retains, rfl⟩ offers, ?_⟩
      rw [settle, List.foldlM_cons, ← known_eq]
      exact (congrArg (· >>= _) added_eq).trans settle_eq

end Data

section Declarations

/-- A world after references have been made and a name has been declared. -/
def declaredIn (world : World) (store : Store) (name : String) (type : Ty) : World where
  store := store
  registry := { world.registry with own := { world.registry.own with
    declarations := world.registry.own.declarations.insert name type } }

variable {store : Store} {type : Ty} {formals : List Ty}

theorem lookup?_declaredIn (other : String) :
    (declaredIn world store name type).registry.lookup? other =
      if other = name then some type else world.registry.lookup? other :=
  Registry.lookup?_insert other

theorem Orderly.declaredIn (orderly : Orderly resolve world) :
    Orderly resolve (declaredIn world store name type) where
  inherited_eq := orderly.inherited_eq
  vacant other undeclared := by
    rw [lookup?_declaredIn] at undeclared
    split at undeclared
    · cases undeclared
    · exact orderly.vacant undeclared
  rules_eq := orderly.rules_eq

/-- A name which is declared is accounted for in the end. -/
theorem Accounts.of_declaredIn (orderly : Orderly resolve world) (grows : world.store.Grows store)
    (undeclared : world.registry.lookup? name = none)
    (rest : Accounts resolve sorts (· = name) (declaredIn world store name type) after)
    (accounted : Accounted resolve after name) :
    Accounts resolve sorts (fun _ => False) world after := by
  have made : Accounts resolve sorts (fun _ => False) world { world with store } :=
    .of_grows orderly grows
  have declares : World.Retains { world with store } (declaredIn world store name type) :=
    ⟨⟨[name], .single undeclared rfl rfl⟩, fun _ => id⟩
  have distinct {other : String} (declared : world.registry.lookup? other ≠ none) : other ≠ name := by
    rintro rfl
    exact declared undeclared
  refine ⟨(made.retains.trans declares).trans rest.retains, rest.orderly,
    fun other declared _ => ?_, fun _ _ known => rest.bodies_eq (made.bodies_eq known),
    fun other other_undeclared declared => ?_, rest.rules_of_new⟩
  · refine rest.constructors_eq ?_ (distinct declared)
    rwa [lookup?_declaredIn, if_neg (distinct declared)]
  · by_cases same : other = name
    · exact same ▸ accounted
    · refine rest.accounted ?_ declared
      rwa [lookup?_declaredIn, if_neg same]

/-- Declaring a data type gives an account of it. -/
theorem declareData_accounts (orderly : Orderly resolve world)
    (undeclared : world.registry.lookup? name = none)
    (fields : ∀ production ∈ (resolve name).toList, production.name.isSome = true →
      GivesAccount resolve sorts (fieldsWithin resolve depth production.symbols)) :
    (declareData (fieldsWithin resolve depth) name formals (resolve name)).Meets world
      (fun _ after => Accounts resolve sorts (fun _ => False) world after) fun _ _ => True := by
  refine Building.meets_bind.mpr (Building.meets_make.mpr ?_)
  rw [Making.run_newData]
  refine Building.meets_bind.mpr (Building.meets_register.mpr ?_)
  rw [Registry.declare_of_undeclared undeclared]
  have declared_eq : (declaredIn world (world.store.makeData name formals).2 name
      (.dataRef (world.store.makeData name formals).1)).registry.lookup? name =
        some (.dataRef (world.store.makeData name formals).1) :=
    (lookup?_declaredIn name).trans (if_pos rfl)
  have grows : world.store.Grows (world.store.makeData name formals).2 := .makeData name formals
  refine Building.Meets.bind (declareConstructors_accounts (orderly.declaredIn) declared_eq fields)
    (fun _ after ⟨rest, offered, offers, settle_eq⟩ => ?_) fun _ _ => id
  refine .of_declaredIn orderly grows undeclared rest
    ⟨fun reference lookup_eq => ?_, fun reference lookup_eq => ?_⟩
  · obtain rfl := Ty.dataRef.inj (Option.some.inj
      ((rest.lookup?_eq declared_eq).symm.trans lookup_eq))
    exact ⟨offered, offers, orderly.vacant undeclared ▸ settle_eq⟩
  · cases (rest.lookup?_eq declared_eq).symm.trans lookup_eq

/-- Filling an empty slot leaves the bodies which are known. -/
theorem Accounts.of_fill {reference : AliasRef Ty} {body : Ty} {filled : Store}
    (orderly : Orderly resolve world) (fill_eq : world.store.fill? reference body = some filled) :
    Accounts resolve sorts exempt world { world with store := filled } := by
  have body?_eq := Store.body?_of_fill? fill_eq
  have bodies_eq ⦃other : AliasRef Ty⦄ ⦃known : Ty⦄ (known_eq : world.store.body? other = some known) :
      filled.body? other = some known := by
    rw [body?_eq, if_neg]
    · exact known_eq
    · intro same
      have empty := Store.body?_eq_none_of_fill? fill_eq
      rw [Store.body?, ← same] at empty
      cases known_eq.symm.trans empty
  refine ⟨.of_store fun other known => ?_, ⟨orderly.inherited_eq, orderly.vacant, orderly.rules_eq⟩,
    fun _ _ _ => rfl, bodies_eq, fun _ undeclared declared => absurd undeclared declared,
    fun _ => .inl⟩
  obtain ⟨body, body_eq⟩ := Option.ne_none_iff_exists'.mp known
  rw [bodies_eq body_eq]
  exact Option.some_ne_none _

/-- Declaring an alias gives an account of it. -/
theorem declareAlias_accounts (orderly : Orderly resolve world)
    (undeclared : world.registry.lookup? name = none)
    (body : ∀ symbol, bodySymbol? (resolve name) = some symbol →
      GivesAccount resolve sorts (typeWithin resolve depth symbol)) :
    (declareAlias (typeWithin resolve depth) name formals (resolve name)).Meets world
      (fun _ after => Accounts resolve sorts (fun _ => False) world after) fun _ _ => True := by
  rw [declareAlias_eq]
  refine Building.meets_bind.mpr (Building.meets_make.mpr ?_)
  rw [Making.run_newAlias]
  refine Building.meets_bind.mpr (Building.meets_register.mpr ?_)
  rw [Registry.declare_of_undeclared undeclared]
  have declared_eq : (declaredIn world (world.store.makeAlias name formals none).2 name
      (.aliasRef (world.store.makeAlias name formals none).1)).registry.lookup? name =
        some (.aliasRef (world.store.makeAlias name formals none).1) :=
    (lookup?_declaredIn name).trans (if_pos rfl)
  have declares : (declaredIn world (world.store.makeAlias name formals none).2 name
      (.aliasRef (world.store.makeAlias name formals none).1)).registry.lookup? name ≠ none := by
    rw [declared_eq]
    exact nofun
  have grows : world.store.Grows (world.store.makeAlias name formals none).2 :=
    .makeAlias name formals none
  have body_gives :
      GivesAccount resolve sorts (bodyType (typeWithin resolve depth) (resolve name)) := by
    unfold bodyType
    split
    · next symbol symbol_eq => exact body symbol symbol_eq
    · exact closed_givesAccount.pure _
  refine Building.meets_bind_of_runs (fun body known run_eq => ?_) fun _ _ _ => trivial
  have accounts := (Building.meets_iff_of_run_eq_ok run_eq).mp (body_gives _ orderly.declaredIn)
  have embodies : Embodies resolve known name body := by
    unfold Embodies
    unfold bodyType at run_eq
    split
    · next symbol symbol_eq =>
      rw [symbol_eq] at run_eq
      exact ⟨depth, _, known, declares, run_eq, .refl known⟩
    · next no_symbol =>
      rw [no_symbol] at run_eq
      exact (Except.ok.inj (congrArg Prod.fst run_eq)).symm
  refine Building.meets_bind.mpr (meets_fillSlot.mpr ?_)
  split
  · next filled fill_eq =>
    have fills : Accounts resolve sorts (· = name) known { known with store := filled } :=
      .of_fill accounts.orderly fill_eq
    have rest := (accounts.mono fun _ => False.elim).trans fills fun other same => same ▸ declares
    refine .of_declaredIn orderly grows undeclared rest
      ⟨fun reference lookup_eq => ?_, fun reference lookup_eq => ?_⟩
    · cases (rest.lookup?_eq declared_eq).symm.trans lookup_eq
    · obtain rfl := Ty.aliasRef.inj (Option.some.inj
        ((rest.lookup?_eq declared_eq).symm.trans lookup_eq))
      exact ⟨body, (Store.body?_of_fill? fill_eq _).trans (if_pos rfl), embodies.mono fills.retains⟩
  · trivial

end Declarations

section Names

variable {root visited : Symbol}

/-- The type of a symbol which a reconstruction goes through is accounted for if its names are. -/
theorem typeWithin_givesAccount (goes : GoesThrough resolve root visited)
    (expands : ∀ name production world, (resolve name).first? = some production →
      Reaches resolve root name → Orderly resolve world → world.registry.lookup? name = none →
        (expandWithin resolve depth name production.subject).Meets world
          (fun _ after => Accounts resolve (MeetsSort resolve root) (fun _ => False) world after)
          fun _ _ => True) :
    GivesAccount resolve (MeetsSort resolve root) (typeWithin resolve depth visited) :=
  typeWith_closed closed_givesAccount
    (fun name names actuals => namedWith_givesAccount (fun production world first_eq =>
      expands name production world first_eq (goes.reaches names)) actuals)
    fun _ mem => sortWith_givesAccount ⟨visited, goes, mem⟩

/-- Formal parameters which mention no names declare none. -/
theorem formals_leave_undeclared (plain : ∀ formal ∈ formalsOf resolve name, ∀ other,
      ¬formal.Names other) (undeclared : world.registry.lookup? name = none) :
    (typesWith (namedWith resolve (expandWithin resolve depth)) (sortWith resolve)
      (formalsOf resolve name)).Meets world
        (fun _ after => after.registry.lookup? name = none) fun _ _ => True := by
  have keeps : Keeps resolve (fun _ => False) _ (typesWith (namedWith resolve
      (expandWithin resolve depth)) (sortWith resolve) (formalsOf resolve name)) world :=
    typesWith_keeps fun formal mem world => typeWith_keeps sortWith_keeps
      (fun other names => absurd names (plain formal mem other)) world
  refine Building.Meets.mono keeps (fun _ after ⟨advances, _⟩ => ?_) fun _ _ _ => trivial
  by_contra declared
  exact advances.names_of_new undeclared declared

/-- Expanding a name which is reached gives an account of all that is declared on the way. -/
theorem expandWithin_accounts
    (plain : ∀ name, ∀ formal ∈ formalsOf resolve name, ∀ other, ¬formal.Names other)
    (depth : Nat) {production : Production} (first_eq : (resolve name).first? = some production)
    (reaches : Reaches resolve root name) (orderly : Orderly resolve world)
    (undeclared : world.registry.lookup? name = none) :
    (expandWithin resolve depth name production.subject).Meets world
      (fun _ after => Accounts resolve (MeetsSort resolve root) (fun _ => False) world after)
      fun _ _ => True := by
  induction depth generalizing name production world with
  | zero => trivial
  | succ depth ih =>
    have part_gives {part : Symbol} (mem : part ∈ formalsOf resolve name ++ contentsOf resolve name) :
        GivesAccount resolve (MeetsSort resolve root) (typeWithin resolve depth part) :=
      typeWithin_givesAccount (.inr ⟨name, reaches, mem⟩) fun _ _ _ => ih
    have formals_give : GivesAccount resolve (MeetsSort resolve root) (typesWith
        (namedWith resolve (expandWithin resolve depth)) (sortWith resolve)
          (formalsOf resolve name)) :=
      typesWith_closed closed_givesAccount fun formal mem =>
        part_gives (List.mem_append_left _ mem)
    have formals_meet := (formals_give world orderly).and
      (formals_leave_undeclared (plain name) undeclared)
    have fields_give (contents_eq : contentsOf resolve name =
        ((resolve name).toList.filter (·.name.isSome)).flatMap (·.symbols)) :
        ∀ production ∈ (resolve name).toList, production.name.isSome = true →
          GivesAccount resolve (MeetsSort resolve root)
            (fieldsWithin resolve depth production.symbols) := fun production mem named =>
      fieldsWith_closed closed_givesAccount fun symbol symbol_mem =>
        part_gives <| List.mem_append_right _ <| contents_eq ▸
          List.mem_flatMap.mpr ⟨production, List.mem_filter.mpr ⟨mem, named⟩, symbol_mem⟩
    unfold expandWithin
    split
    · next other parameters subject_eq =>
      have contents_eq := contentsOf_eq_of_alias first_eq subject_eq
      rw [← formalsOf_eq_of_alias first_eq subject_eq]
      refine Building.Meets.bind formals_meet (fun formals after ⟨accounts, still⟩ => ?_)
        fun _ _ _ => trivial
      refine (declareAlias_accounts accounts.orderly still fun symbol symbol_eq => ?_).mono
        (fun _ _ later => accounts.trans later fun _ => False.elim) fun _ _ => id
      exact part_gives (List.mem_append_right _ (by simp [contents_eq, symbol_eq]))
    · next other parameters subject_eq =>
      rw [← formalsOf_eq_of_data first_eq subject_eq]
      refine Building.Meets.bind formals_meet (fun formals after ⟨accounts, still⟩ => ?_)
        fun _ _ _ => trivial
      exact (declareData_accounts accounts.orderly still
        (fields_give (contentsOf_eq_of_not_alias first_eq (by simp [subject_eq])))).mono
          (fun _ _ later => accounts.trans later fun _ => False.elim) fun _ _ => id
    · next no_alias no_data =>
      exact declareData_accounts orderly undeclared
        (fields_give (contentsOf_eq_of_not_alias first_eq no_alias))

end Names

end Reification.Reconstruct
