import Reification.Proofs.Entries
import Reification.Proofs.Upkeep

/-!
# Confined reconstructions

Whatever is mentioned in a reconstruction comes from the symbols which it goes through: instantiating
a type mentions what the type, the bodies of its aliases and the actual parameters mention.  So if
certain mentions are allowed and the symbols lead to no others, then no others are found in the
result, in the declarations, in the constructors and in the bodies of aliases.
-/

namespace Reification

variable {allowed : Mention → Prop}

/-- Whether a type mentions nothing but what is allowed. -/
def Ty.MentionsOnly (allowed : Mention → Prop) (type : Ty) : Prop :=
  ∀ mention ∈ type.symbol.mentions, allowed mention

namespace Ty

theorem forall_mem_mentions_symbols {types : List Ty} :
    (∀ mention ∈ Symbol.mentionsOfAll (symbols types), allowed mention) ↔
      ∀ type ∈ types, type.MentionsOnly allowed := by
  simp only [Symbol.mentionsOfAll_eq, symbols_eq, List.mem_flatMap, List.mem_map, MentionsOnly]
  exact ⟨fun all type mem mention mention_mem => all mention ⟨_, ⟨type, mem, rfl⟩, mention_mem⟩,
    fun all mention ⟨_, ⟨type, mem, symbol_eq⟩, mention_mem⟩ =>
      all type mem mention (symbol_eq ▸ mention_mem)⟩

theorem forall_mem_mentions_fields {fields : List (Field Ty)} :
    (∀ mention ∈ Symbol.mentionsOfAll (symbolsOfFields fields), allowed mention) ↔
      ∀ field ∈ fields, field.type.MentionsOnly allowed := by
  simp only [Symbol.mentionsOfAll_eq, symbolsOfFields_eq, List.mem_flatMap, List.mem_map,
    MentionsOnly]
  refine ⟨fun all field mem mention mention_mem => all mention ⟨_, ⟨field, mem, rfl⟩, ?_⟩, ?_⟩
  · exact (Field.mentions_symbol _ _).symm ▸ mention_mem
  · rintro all mention ⟨_, ⟨field, mem, rfl⟩, mention_mem⟩
    exact all field mem mention (Field.mentions_symbol _ _ ▸ mention_mem)

@[simp]
theorem mentionsOnly_prim {primitive : Primitive} : (prim primitive).MentionsOnly allowed := nofun

@[simp]
theorem mentionsOnly_sort {name : String} :
    (sort name).MentionsOnly allowed ↔ allowed (.sort name) := by
  simp [MentionsOnly, symbol, Symbol.mentions]

@[simp]
theorem mentionsOnly_list {element : Ty} :
    (list element).MentionsOnly allowed ↔ element.MentionsOnly allowed := Iff.rfl

@[simp]
theorem mentionsOnly_set {element : Ty} :
    (set element).MentionsOnly allowed ↔ element.MentionsOnly allowed := Iff.rfl

@[simp]
theorem mentionsOnly_reified {inner : Ty} :
    (reified inner).MentionsOnly allowed ↔ inner.MentionsOnly allowed := Iff.rfl

@[simp]
theorem mentionsOnly_parameter {name : String} {bound : Ty} :
    (parameter name bound).MentionsOnly allowed ↔ bound.MentionsOnly allowed := Iff.rfl

@[simp]
theorem mentionsOnly_map {key value : Ty} : (map key value).MentionsOnly allowed ↔
    key.MentionsOnly allowed ∧ value.MentionsOnly allowed := List.forall_mem_append

@[simp]
theorem mentionsOnly_tuple {fields : List (Field Ty)} : (tuple fields).MentionsOnly allowed ↔
    ∀ field ∈ fields, field.type.MentionsOnly allowed := forall_mem_mentions_fields

@[simp]
theorem mentionsOnly_func {result : Ty} {arguments : List (Field Ty)} :
    (func result arguments).MentionsOnly allowed ↔ result.MentionsOnly allowed ∧
      ∀ field ∈ arguments, field.type.MentionsOnly allowed :=
  List.forall_mem_append.trans (and_congr_right' forall_mem_mentions_fields)

@[simp]
theorem mentionsOnly_dataRef {reference : DataRef Ty} :
    (dataRef reference).MentionsOnly allowed ↔
      (∀ type ∈ reference.parameters, type.MentionsOnly allowed) ∧
        allowed (.dataRef reference.name) :=
  List.forall_mem_append.trans
    (and_congr forall_mem_mentions_symbols List.forall_mem_singleton)

@[simp]
theorem mentionsOnly_aliasRef {reference : AliasRef Ty} :
    (aliasRef reference).MentionsOnly allowed ↔
      (∀ type ∈ reference.parameters, type.MentionsOnly allowed) ∧
        allowed (.aliasRef reference.name) :=
  List.forall_mem_append.trans
    (and_congr forall_mem_mentions_symbols List.forall_mem_singleton)

@[simp]
theorem mentionsOnly_constructor {reference : Constructor Ty} :
    (constructor reference).MentionsOnly allowed ↔
      (dataRef reference.owner).MentionsOnly allowed ∧
        ∀ field ∈ reference.fields, field.type.MentionsOnly allowed :=
  List.forall_mem_append.trans (and_congr_right' forall_mem_mentions_fields)

/-- Which kind of declaration a type refers to. -/
def kind? : Ty → Option DeclarationKind
  | dataRef _ => some .dataType
  | aliasRef _ => some .aliasType
  | _ => none

theorem kind?_eq_dataType_iff {type : Ty} :
    type.kind? = some .dataType ↔ ∃ reference, type = .dataRef reference := by
  cases type <;> simp [kind?]

end Ty

/-- Whether the bodies of aliases mention nothing but what is allowed. -/
def Store.Confined (allowed : Mention → Prop) (store : Store) : Prop :=
  ∀ ⦃reference body⦄, store.body? reference = some body → body.MentionsOnly allowed

section Making

variable {α β : Type} {post : α → Prop}

/-- A computation which makes references keeps the bodies of aliases confined. -/
def Making.Confines (allowed : Mention → Prop) (making : Making α) (post : α → Prop) : Prop :=
  ∀ ⦃store : Store⦄, store.Confined allowed →
    making.Meets store (fun result after => after.Confined allowed ∧ post result) True

namespace Making

theorem confines_pure {result : α} (holds : post result) :
    Confines allowed (pure result) post := fun _ confined => ⟨confined, holds⟩

theorem confines_failure : Confines allowed (failure : Making α) post := fun _ _ => trivial

theorem Confines.bind {making : Making α} {next : α → Making β} {post' : β → Prop}
    (first : Confines allowed making post)
    (second : ∀ result, post result → Confines allowed (next result) post') :
    Confines allowed (making >>= next) post' := fun _ confined =>
  meets_bind.mpr ((first confined).mono fun result _ ⟨confined, holds⟩ =>
    second result holds confined)

theorem Confines.mono {making : Making α} {post' : α → Prop} (confines : Confines allowed making post)
    (le : ∀ result, post result → post' result) : Confines allowed making post' :=
  fun _ confined => (confines confined).mono fun _ _ => And.imp_right (le _)

theorem confines_newData {name : String} {parameters : List Ty} :
    Confines allowed (newData name parameters) fun reference =>
      reference.name = name ∧ reference.parameters = parameters :=
  fun _ confined => ⟨confined, rfl, rfl⟩

theorem confines_newConstructor {owner : DataRef Ty} {name : String} {fields : List (Field Ty)}
    {attributes : OrderedSet Attribute} :
    Confines allowed (newConstructor owner name fields attributes) fun reference =>
      reference.owner = owner ∧ reference.fields = fields :=
  fun _ confined => ⟨confined, rfl, rfl⟩

theorem confines_newAlias {name : String} {parameters : List Ty} {body : Option Ty}
    (body_only : ∀ known, body = some known → known.MentionsOnly allowed) :
    Confines allowed (newAlias name parameters body) fun reference =>
      reference.name = name ∧ reference.parameters = parameters := by
  refine fun store confined => ⟨fun reference known known_eq => ?_, rfl, rfl⟩
  replace known_eq := (store.body?_makeAlias name parameters body reference).symm.trans known_eq
  split at known_eq
  · exact body_only known known_eq
  · exact confined known_eq

end Making

/-- Making references keeps an invariant which demands nothing of the store but that the bodies of
aliases are confined. -/
theorem Building.yields_make {invariant : World → Prop} {making : Making α}
    (bodies : ∀ ⦃world⦄, invariant world → world.store.Confined allowed)
    (kept : ∀ ⦃world store⦄, invariant world → store.Confined allowed →
      invariant { world with store })
    (confines : Making.Confines allowed making post) :
    Yields invariant (make making) fun result =>
      post result ∧ ∃ before after, making.run before = some (result, after) := by
  intro world known
  have made := confines (bodies known)
  refine meets_make.mpr ?_
  rcases run_eq : making.run world.store with _ | ⟨result, store⟩
  · trivial
  · obtain ⟨confined, holds⟩ := (Making.meets_of_run_eq run_eq).mp made
    exact ⟨kept known confined, holds, world.store, store, run_eq⟩

end Making

namespace Ty

variable {bindings : Bindings} {body : AliasRef Ty → Making (Option Ty)}

/-- Whether the types which are bound to names mention nothing but what is allowed. -/
def BindsOnly (allowed : Mention → Prop) (bindings : Bindings) : Prop :=
  ∀ ⦃name type⦄, bindings.get? name = some type → type.MentionsOnly allowed

theorem bindsOnly_ofParameters (formals : List Ty) {actuals : List Ty}
    (only : ∀ actual ∈ actuals, actual.MentionsOnly allowed) :
    BindsOnly allowed (.ofParameters formals actuals) := by
  have step {pairs : List (Ty × Ty)} (pairs_only : ∀ pair ∈ pairs, pair.2.MentionsOnly allowed)
      {bindings : Bindings} (binds : BindsOnly allowed bindings) :
      BindsOnly allowed (pairs.foldl Bindings.bind bindings) := by
    induction pairs generalizing bindings with
    | nil => exact binds
    | cons pair pairs ih =>
      obtain ⟨head_only, tail_only⟩ := List.forall_mem_cons.mp pairs_only
      refine ih tail_only ?_
      obtain ⟨formal, actual⟩ := pair
      cases formal with
      | parameter formal bound =>
        intro name type found
        rw [Bindings.bind, Table.get?_insert] at found
        split at found
        · exact Option.some.inj found ▸ head_only
        · exact binds found
      | _ => exact binds
  exact step (fun pair mem => only _ (List.of_mem_zip mem).2) fun name type found => by
    simp at found

theorem instantiateAllWith_confines {types : List Ty}
    (confines : ∀ type ∈ types, Making.Confines allowed (type.instantiateWith bindings body)
      (MentionsOnly allowed)) :
    Making.Confines allowed (instantiateAllWith bindings body types)
      fun results => ∀ type ∈ results, type.MentionsOnly allowed := by
  induction types with
  | nil => exact Making.confines_pure (by simp)
  | cons type types ih =>
    obtain ⟨head, tail⟩ := List.forall_mem_cons.mp confines
    exact head.bind fun _ only => (ih tail).bind fun _ rest =>
      Making.confines_pure (List.forall_mem_cons.mpr ⟨only, rest⟩)

theorem instantiateFieldsWith_confines {fields : List (Field Ty)}
    (confines : ∀ field ∈ fields, Making.Confines allowed
      (field.type.instantiateWith bindings body) (MentionsOnly allowed)) :
    Making.Confines allowed (instantiateFieldsWith bindings body fields)
      fun results => ∀ field ∈ results, field.type.MentionsOnly allowed := by
  induction fields with
  | nil => exact Making.confines_pure (by simp)
  | cons field fields ih =>
    obtain ⟨head, tail⟩ := List.forall_mem_cons.mp confines
    exact head.bind fun _ only => (ih tail).bind fun _ rest =>
      Making.confines_pure (List.forall_mem_cons.mpr ⟨only, rest⟩)

/-- An instance of a type mentions what the type, the bodies of aliases and the actual parameters
mention. -/
theorem instantiateWith_confines (binds : BindsOnly allowed bindings)
    (body_confines : ∀ reference, Making.Confines allowed (body reference)
      fun found => ∀ known, found = some known → known.MentionsOnly allowed) {type : Ty}
    (only : type.MentionsOnly allowed) :
    Making.Confines allowed (type.instantiateWith bindings body) (MentionsOnly allowed) := by
  induction type using Ty.induction with
  | prim | sort => exact Making.confines_pure only
  | list _ ih | set _ ih | reified _ ih =>
    exact (ih only).bind fun _ only => Making.confines_pure only
  | parameter name bound =>
    refine Making.confines_pure ?_
    rcases found : bindings.get? name with _ | actual
    · exact only
    · exact binds found
  | map _ _ ih_key ih_value =>
    obtain ⟨key_only, value_only⟩ := mentionsOnly_map.mp only
    exact (ih_key key_only).bind fun _ key_only => (ih_value value_only).bind
      fun _ value_only => Making.confines_pure (mentionsOnly_map.mpr ⟨key_only, value_only⟩)
  | tuple fields ih =>
    have fields_only := mentionsOnly_tuple.mp only
    exact (instantiateFieldsWith_confines fun field mem => ih field mem (fields_only field mem)).bind
      fun _ fields_only => Making.confines_pure (mentionsOnly_tuple.mpr fields_only)
  | func result arguments ih ih_arguments =>
    obtain ⟨result_only, arguments_only⟩ := mentionsOnly_func.mp only
    refine (ih result_only).bind fun _ result_only => ?_
    exact (instantiateFieldsWith_confines fun field mem =>
      ih_arguments field mem (arguments_only field mem)).bind fun _ arguments_only =>
        Making.confines_pure (mentionsOnly_func.mpr ⟨result_only, arguments_only⟩)
  | dataRef object name parameters ih =>
    obtain ⟨parameters_only, allows⟩ := mentionsOnly_dataRef.mp only
    rw [instantiateWith]
    split
    · exact Making.confines_pure only
    · refine (instantiateAllWith_confines fun type mem => ih type mem (parameters_only type mem)).bind
        fun actuals actuals_only => Making.confines_newData.bind fun reference made => ?_
      refine Making.confines_pure (mentionsOnly_dataRef.mpr ?_)
      rw [made.1, made.2]
      exact ⟨actuals_only, allows⟩
  | aliasRef object name parameters ih =>
    obtain ⟨parameters_only, allows⟩ := mentionsOnly_aliasRef.mp only
    rw [instantiateWith]
    split
    · exact Making.confines_pure only
    · refine (instantiateAllWith_confines fun type mem => ih type mem (parameters_only type mem)).bind
        fun actuals actuals_only => (body_confines _).bind fun found body_only =>
          (Making.confines_newAlias body_only).bind fun reference made => ?_
      refine Making.confines_pure (mentionsOnly_aliasRef.mpr ?_)
      rw [made.1, made.2]
      exact ⟨actuals_only, allows⟩
  | constructor object owner ownerName parameters name fields attributes ih ih_fields =>
    obtain ⟨owner_only, fields_only⟩ := mentionsOnly_constructor.mp only
    obtain ⟨parameters_only, allows⟩ := mentionsOnly_dataRef.mp owner_only
    rw [instantiateWith]
    split
    · exact Making.confines_pure only
    · refine (instantiateAllWith_confines fun type mem => ih type mem (parameters_only type mem)).bind
        fun actuals actuals_only => Making.confines_newData.bind fun owner owner_made => ?_
      refine (instantiateFieldsWith_confines fun field mem =>
        ih_fields field mem (fields_only field mem)).bind fun fields fields_only =>
          Making.confines_newConstructor.bind fun reference made => ?_
      refine Making.confines_pure (mentionsOnly_constructor.mpr ?_)
      rw [made.1, made.2, mentionsOnly_dataRef, owner_made.1, owner_made.2]
      exact ⟨⟨actuals_only, allows⟩, fields_only⟩

theorem instantiateWithin_confines (binds : BindsOnly allowed bindings) (depth : Nat) {type : Ty}
    (only : type.MentionsOnly allowed) :
    Making.Confines allowed (type.instantiateWithin bindings depth) (MentionsOnly allowed) := by
  induction depth generalizing type with
  | zero => exact instantiateWith_confines binds (fun _ => Making.confines_failure) only
  | succ depth ih =>
    refine instantiateWith_confines binds (fun reference store confined => ?_) only
    have meets_get {next : Store → Making (Option Ty)} {ok : Option Ty → Store → Prop}
        (meets : (next store).Meets store ok True) : (get >>= next).Meets store ok True :=
      Making.meets_bind.mpr meets
    refine meets_get ?_
    split
    · next body body_eq =>
      rw [map_eq_pure_bind]
      refine (ih (confined body_eq)).bind (fun result only => Making.confines_pure ?_) confined
      rintro _ ⟨⟩
      exact only
    · exact ⟨confined, nofun⟩

theorem instantiate_confines (binds : BindsOnly allowed bindings) {type : Ty}
    (only : type.MentionsOnly allowed) :
    Making.Confines allowed (type.instantiate bindings) (MentionsOnly allowed) := fun _ confined =>
  Making.meets_bind.mpr (instantiateWithin_confines binds _ only confined)

/-- A reference to a declaration stays one of its kind and its name. -/
theorem instantiate_reference {type : Ty} {kind : DeclarationKind} (kind_eq : type.kind? = some kind)
    (store : Store) : (type.instantiate bindings).Meets store
      (fun result _ => result.kind? = some kind ∧ result.name? = type.name?) True := by
  refine Making.meets_bind.mpr ?_
  change Making.Meets (instantiateWithin bindings _ type) store _ _
  rw [instantiateWithin_eq]
  cases type with
  | dataRef reference =>
    rw [instantiateWith]
    split
    · exact ⟨kind_eq, rfl⟩
    · exact Making.meets_bind.mpr ((Making.meets_true _).mono fun _ _ _ =>
        Making.meets_bind.mpr ⟨kind_eq, rfl⟩)
  | aliasRef reference =>
    rw [instantiateWith]
    split
    · exact ⟨kind_eq, rfl⟩
    · exact Making.meets_bind.mpr ((Making.meets_true _).mono fun _ _ _ =>
        Making.meets_bind.mpr ((Making.meets_true _).mono fun _ _ _ =>
          Making.meets_bind.mpr ⟨kind_eq, rfl⟩))
  | _ => cases kind_eq

end Ty

/-- What is mentioned in a part of a symbol is mentioned in the symbol. -/
theorem Symbol.mentions_of_child {symbol child : Symbol} (mem : child ∈ symbol.children) :
    child.mentions ⊆ symbol.mentions := by
  intro mention mention_mem
  cases symbol with
  | prim | sort => cases mem
  | label | list | set | reified | parameter => exact List.mem_singleton.mp mem ▸ mention_mem
  | map key value =>
    obtain rfl | rfl : child = key ∨ child = value := by simpa [children] using mem
    · exact List.mem_append_left _ mention_mem
    · exact List.mem_append_right _ mention_mem
  | tuple => exact mem_mentionsOfAll mem mention_mem
  | func result arguments =>
    rcases List.mem_cons.mp mem with rfl | mem
    · exact List.mem_append_left _ mention_mem
    · exact List.mem_append_right _ (mem_mentionsOfAll mem mention_mem)
  | dataRef | aliasRef => exact List.mem_append_left _ (mem_mentionsOfAll mem mention_mem)
  | constructor owner name fields =>
    rcases List.mem_cons.mp mem with rfl | mem
    · exact List.mem_append_left _ mention_mem
    · exact List.mem_append_right _ (mem_mentionsOfAll mem mention_mem)

namespace Reconstruct

/-- Whether a type refers to a declaration of the kind of a name. -/
def OfKind (resolve : Resolver) (name : String) (type : Ty) : Prop :=
  type.kind? = some .dataType ∧ ¬IsAlias resolve name ∨
    type.kind? = some .aliasType ∧ IsAlias resolve name

/-- Whether a name may be mentioned as what it is declared as. -/
def Allows (resolve : Resolver) (allowed : Mention → Prop) (name : String) : Prop :=
  (¬IsAlias resolve name → allowed (.dataRef name)) ∧
    (IsAlias resolve name → allowed (.aliasRef name))

/-- Whether a reconstruction which goes through a symbol mentions nothing but what is allowed. -/
structure Sanctions (resolve : Resolver) (allowed : Mention → Prop) (symbol : Symbol) : Prop where
  names : ∀ ⦃name⦄, symbol.Names name → Allows resolve allowed name
  sorts : ∀ ⦃name⦄, .sort name ∈ symbol.mentions → allowed (.sort name)
  /-- No owner is made up for a constructor, unless any may be mentioned. -/
  owners : ∀ ⦃owner name fields⦄, symbol.Contains (.constructor owner name fields) →
    IsData resolve owner ∨ ∀ name, allowed (.dataRef name)

/-- Whether everything that is kept in a world mentions nothing but what is allowed, and names are
declared as what their alternatives tell. -/
structure Confined (resolve : Resolver) (allowed : Mention → Prop) (world : World) : Prop where
  bodies : world.store.Confined allowed
  declared : ∀ ⦃name type⦄, world.registry.lookup? name = some type →
    type.MentionsOnly allowed ∧ OfKind resolve name type
  constructors : ∀ layer ∈ world.registry.layers, ∀ ⦃name constructor⦄,
    constructor ∈ layer.constructorsOf name → (Ty.constructor constructor).MentionsOnly allowed

/-- A computation keeps a world confined. -/
def Confines {α : Type} (resolve : Resolver) (allowed : Mention → Prop) (building : Building α)
    (post : α → Prop) : Prop :=
  ∀ ⦃world⦄, Confined resolve allowed world → building.Meets world
    (fun result after => Confined resolve allowed after ∧ post result) fun _ _ => True

variable {resolve : Resolver} {α β : Type} {post : α → Prop}

section Rules

theorem confines_pure {result : α} (holds : post result) :
    Confines resolve allowed (pure result) post := Building.yields_pure holds

theorem confines_throw {failure : Failure} :
    Confines resolve allowed (throw failure : Building α) post := fun _ _ => trivial

theorem confines_get : Confines resolve allowed (get : Building World) (Confined resolve allowed) :=
  fun _ confined => ⟨confined, confined⟩

theorem Confines.bind {building : Building α} {next : α → Building β} {post' : β → Prop}
    (first : Confines resolve allowed building post)
    (second : ∀ result, post result → Confines resolve allowed (next result) post') :
    Confines resolve allowed (building >>= next) post' := Building.Yields.bind first second

theorem Confines.mono {building : Building α} {post' : α → Prop}
    (confines : Confines resolve allowed building post)
    (le : ∀ result, post result → post' result) : Confines resolve allowed building post' :=
  Building.Yields.mono confines le

theorem confines_make {making : Making α} (confines : Making.Confines allowed making post) :
    Confines resolve allowed (Building.make making) post :=
  (Building.yields_make (fun _ confined => confined.bodies)
    (fun _ _ confined bodies => { confined with bodies }) confines).mono fun _ => And.left

theorem confines_make_and {making : Making α} {post' : α → Prop}
    (confines : Making.Confines allowed making post)
    (meets : ∀ store, making.Meets store (fun result _ => post' result) True) :
    Confines resolve allowed (Building.make making) fun result => post result ∧ post' result :=
  confines_make fun _ confined => ((confines confined).and (meets _)).mono
    fun _ _ ⟨⟨confined, holds⟩, holds'⟩ => ⟨confined, holds, holds'⟩

theorem confines_ask {question : Registry → Store → Option α} :
    Confines resolve allowed (Building.ask question) fun result =>
      ∃ world, Confined resolve allowed world ∧
        question world.registry world.store = some result := Building.yields_ask

end Rules

section Parts

variable {actuals : List Ty} {fields : List (Field Ty)}

theorem applied_confines {declared : Ty} {name : String} (only : declared.MentionsOnly allowed)
    (of_kind : OfKind resolve name declared)
    (actuals_only : ∀ actual ∈ actuals, actual.MentionsOnly allowed) :
    Confines resolve allowed (applied declared actuals) fun result =>
      result.MentionsOnly allowed ∧ OfKind resolve name result := by
  unfold applied
  split
  · exact confines_pure ⟨only, of_kind⟩
  · refine confines_ask.bind fun equal _ => ?_
    split
    · exact confines_pure ⟨only, of_kind⟩
    · have kept {kind : DeclarationKind} (kind_eq : declared.kind? = some kind) :
          Confines resolve allowed
            (Building.make (declared.instantiate (.ofParameters declared.parameters actuals)))
            fun result => result.MentionsOnly allowed ∧ result.kind? = some kind :=
        confines_make_and (Ty.instantiate_confines
          (Ty.bindsOnly_ofParameters declared.parameters actuals_only) only)
            fun store => (Ty.instantiate_reference kind_eq store).mono fun _ _ => And.left
      rcases of_kind with ⟨kind_eq, not_alias⟩ | ⟨kind_eq, is_alias⟩
      · exact (kept kind_eq).mono fun _ ⟨only, kind_eq⟩ => ⟨only, .inl ⟨kind_eq, not_alias⟩⟩
      · exact (kept kind_eq).mono fun _ ⟨only, kind_eq⟩ => ⟨only, .inr ⟨kind_eq, is_alias⟩⟩

theorem ownerOf_confines {owner : Ty} (only : owner.MentionsOnly allowed)
    (data : (∃ reference, owner = .dataRef reference) ∨ ∀ name, allowed (.dataRef name)) :
    Confines resolve allowed (ownerOf owner) fun reference =>
      (Ty.dataRef reference).MentionsOnly allowed := by
  unfold ownerOf
  split
  · exact confines_pure only
  · next no_data =>
    have allows := data.resolve_left fun ⟨reference, owner_eq⟩ => no_data reference owner_eq
    have parameters_only : ∀ part ∈ owner.parameters, part.MentionsOnly allowed := by
      cases owner with
      | dataRef => exact (Ty.mentionsOnly_dataRef.mp only).1
      | aliasRef => exact (Ty.mentionsOnly_aliasRef.mp only).1
      | _ => exact List.forall_mem_nil _
    refine (confines_make Making.confines_newData).mono fun reference made => ?_
    rw [Ty.mentionsOnly_dataRef, made.2]
    exact ⟨parameters_only, allows _⟩

theorem findConstructor_confines {bindings : Bindings} {name : String}
    (binds : Ty.BindsOnly allowed bindings) {constructors : List (Constructor Ty)}
    (constructors_only : ∀ constructor ∈ constructors,
      (Ty.constructor constructor).MentionsOnly allowed) :
    Confines resolve allowed (findConstructor bindings name fields constructors) fun found =>
      ∀ type, found = some type → type.MentionsOnly allowed ∧ type.kind? = none := by
  induction constructors with
  | nil => exact confines_pure nofun
  | cons constructor constructors ih =>
    obtain ⟨head_only, tail_only⟩ := List.forall_mem_cons.mp constructors_only
    refine (confines_make (Ty.instantiate_confines binds head_only)).bind fun candidate only => ?_
    split
    · split
      · refine confines_ask.bind fun equal _ => ?_
        cases equal
        · exact ih tail_only
        · refine confines_pure ?_
          rintro _ ⟨⟩
          exact ⟨only, rfl⟩
      · exact ih tail_only
    · exact ih tail_only

theorem constructorOf_confines {owner : DataRef Ty} {name : String}
    (owner_only : (Ty.dataRef owner).MentionsOnly allowed)
    (fields_only : ∀ field ∈ fields, field.type.MentionsOnly allowed) :
    Confines resolve allowed (constructorOf owner name fields) fun result =>
      result.MentionsOnly allowed ∧ result.kind? = none := by
  refine confines_get.bind fun start _ => confines_ask.bind fun constructors known => ?_
  obtain ⟨world, confined, constructors_eq⟩ := known
  refine (findConstructor_confines (Ty.bindsOnly_ofParameters _
    (Ty.mentionsOnly_dataRef.mp owner_only).1) fun constructor mem => ?_).bind
      fun found only => ?_
  · obtain ⟨layer, layer_mem, mem⟩ := Registry.mem_constructorsOf constructors_eq mem
    exact confined.constructors layer layer_mem mem
  · cases found with
    | some found => exact confines_pure (only found rfl)
    | none =>
      refine (confines_make Making.confines_newConstructor).bind fun reference made =>
        confines_pure ⟨?_, rfl⟩
      rw [Ty.mentionsOnly_constructor, made.1, made.2]
      exact ⟨owner_only, fields_only⟩

end Parts

section Types

variable {named : String → List Ty → Building Ty} {sort : String → Building Unit}

theorem Sanctions.of_child {symbol child : Symbol} (sanctions : Sanctions resolve allowed symbol)
    (mem : child ∈ symbol.children) : Sanctions resolve allowed child where
  names _ := fun ⟨mention, mention_mem, declared⟩ =>
    sanctions.names ⟨mention, symbol.mentions_of_child mem mention_mem, declared⟩
  sorts _ sort_mem := sanctions.sorts (symbol.mentions_of_child mem sort_mem)
  owners _ _ _ contains := sanctions.owners (contains.of_child mem)

/-- Whether a type mentions nothing but what is allowed and is a reference to a data type just if
its symbol is. -/
def Renders (resolve : Resolver) (allowed : Mention → Prop) (symbol : Symbol) (type : Ty) : Prop :=
  type.MentionsOnly allowed ∧ (type.kind? = some .dataType ↔ IsData resolve symbol)

theorem Renders.of_structure {symbol : Symbol} {type : Ty} (only : type.MentionsOnly allowed)
    (kind_eq : type.kind? = none)
    (no_name : ∀ name parameters, symbol.withoutLabels ≠ .dataRef name parameters ∧
      symbol.withoutLabels ≠ .aliasRef name parameters) :
    Renders resolve allowed symbol type := by
  refine ⟨only, iff_of_false (by simp [kind_eq]) ?_⟩
  rintro ⟨name, parameters, data | alias_, -⟩
  · exact absurd data (no_name name parameters).1
  · exact absurd alias_ (no_name name parameters).2

theorem typesWith_confines {symbols : List Symbol}
    (types : ∀ symbol ∈ symbols, Confines resolve allowed (typeWith named sort symbol)
      (Renders resolve allowed symbol)) :
    Confines resolve allowed (typesWith named sort symbols)
      fun results => ∀ type ∈ results, type.MentionsOnly allowed := by
  induction symbols with
  | nil => exact confines_pure (by simp)
  | cons symbol symbols ih =>
    obtain ⟨head, tail⟩ := List.forall_mem_cons.mp types
    exact head.bind fun _ renders => (ih tail).bind fun _ rest =>
      confines_pure (List.forall_mem_cons.mpr ⟨renders.1, rest⟩)

theorem fieldsWith_confines {symbols : List Symbol}
    (types : ∀ symbol ∈ symbols, Confines resolve allowed (typeWith named sort symbol)
      (Renders resolve allowed symbol)) :
    Confines resolve allowed (fieldsWith named sort symbols)
      fun results => ∀ field ∈ results, field.type.MentionsOnly allowed := by
  induction symbols with
  | nil => exact confines_pure (by simp)
  | cons symbol symbols ih =>
    obtain ⟨head, tail⟩ := List.forall_mem_cons.mp types
    exact head.bind fun _ renders => (ih tail).bind fun _ rest =>
      confines_pure (List.forall_mem_cons.mpr ⟨renders.1, rest⟩)

/-- Whether the type of a name for actual parameters mentions nothing but what is allowed. -/
def NamesConfined (resolve : Resolver) (allowed : Mention → Prop)
    (named : String → List Ty → Building Ty) (name : String) : Prop :=
  ∀ ⦃actuals⦄, (∀ actual ∈ actuals, actual.MentionsOnly allowed) →
    Confines resolve allowed (named name actuals) fun result =>
      result.MentionsOnly allowed ∧ OfKind resolve name result

theorem OfKind.isData_iff {name : String} {type : Ty} (of_kind : OfKind resolve name type) :
    type.kind? = some .dataType ↔ ¬IsAlias resolve name := by
  rcases of_kind with ⟨kind_eq, not_alias⟩ | ⟨kind_eq, is_alias⟩
  · simp [kind_eq, not_alias]
  · simp [kind_eq, is_alias]

/-- The type of a symbol mentions nothing but what is allowed if those of the names in it do. -/
theorem typeWith_confines
    (sorts : ∀ ⦃name⦄, allowed (.sort name) → Confines resolve allowed (sort name) fun _ => True)
    {symbol : Symbol} (sanctions : Sanctions resolve allowed symbol)
    (names : ∀ name, symbol.Names name → NamesConfined resolve allowed named name) :
    Confines resolve allowed (typeWith named sort symbol) (Renders resolve allowed symbol) := by
  induction symbol using Symbol.induction with
  | prim => exact confines_pure (.of_structure Ty.mentionsOnly_prim rfl (by simp [Symbol.withoutLabels]))
  | label name inner ih => exact ih (sanctions.of_child (List.mem_singleton_self _)) names
  | list _ ih | set _ ih | reified _ ih | parameter _ _ ih =>
    exact (ih (sanctions.of_child (List.mem_singleton_self _)) names).bind fun _ renders =>
      confines_pure (.of_structure renders.1 rfl (by simp [Symbol.withoutLabels]))
  | map _ _ ih_key ih_value =>
    simp only [Symbol.names_map] at names
    refine (ih_key (sanctions.of_child (by simp [Symbol.children])) fun _ named =>
      names _ (.inl named)).bind fun key key_renders => ?_
    refine (ih_value (sanctions.of_child (by simp [Symbol.children])) fun _ named =>
      names _ (.inr named)).bind fun value value_renders => confines_pure ?_
    exact .of_structure (Ty.mentionsOnly_map.mpr ⟨key_renders.1, value_renders.1⟩) rfl
      (by simp [Symbol.withoutLabels])
  | tuple fields ih =>
    simp only [Symbol.names_tuple] at names
    refine (fieldsWith_confines fun field mem => ih field mem (sanctions.of_child mem)
      fun _ named => names _ ⟨field, mem, named⟩).bind fun fields fields_only => confines_pure ?_
    exact .of_structure (Ty.mentionsOnly_tuple.mpr fields_only) rfl (by simp [Symbol.withoutLabels])
  | func result arguments ih ih_arguments =>
    simp only [Symbol.names_func] at names
    refine (ih (sanctions.of_child (List.mem_cons_self ..)) fun _ named =>
      names _ (.inl named)).bind fun result renders => ?_
    refine (fieldsWith_confines fun field mem => ih_arguments field mem
      (sanctions.of_child (List.mem_cons_of_mem _ mem)) fun _ named =>
        names _ (.inr ⟨field, mem, named⟩)).bind fun fields fields_only => confines_pure ?_
    exact .of_structure (Ty.mentionsOnly_func.mpr ⟨renders.1, fields_only⟩) rfl
      (by simp [Symbol.withoutLabels])
  | dataRef name parameters ih =>
    simp only [Symbol.names_dataRef] at names
    refine (typesWith_confines fun symbol mem => ih symbol mem (sanctions.of_child mem)
      fun _ named => names _ (.inr ⟨symbol, mem, named⟩)).bind fun actuals actuals_only => ?_
    exact (names name (.inl rfl) actuals_only).mono fun _ kept =>
      ⟨kept.1, kept.2.isData_iff.trans isData_dataRef.symm⟩
  | aliasRef name parameters ih =>
    simp only [Symbol.names_aliasRef] at names
    refine (typesWith_confines fun symbol mem => ih symbol mem (sanctions.of_child mem)
      fun _ named => names _ (.inr ⟨symbol, mem, named⟩)).bind fun actuals actuals_only => ?_
    exact (names name (.inl rfl) actuals_only).mono fun _ kept =>
      ⟨kept.1, kept.2.isData_iff.trans isData_aliasRef.symm⟩
  | constructor owner name fields ih ih_fields =>
    simp only [Symbol.names_constructor] at names
    refine (ih (sanctions.of_child (List.mem_cons_self ..)) fun _ named =>
      names _ (.inl named)).bind fun ownerType renders => ?_
    have data : (∃ reference, ownerType = .dataRef reference) ∨ ∀ name, allowed (.dataRef name) :=
      (sanctions.owners .refl).imp_left fun data =>
        Ty.kind?_eq_dataType_iff.mp (renders.2.mpr data)
    refine (ownerOf_confines renders.1 data).bind fun reference owner_only => ?_
    refine (fieldsWith_confines fun field mem => ih_fields field mem
      (sanctions.of_child (List.mem_cons_of_mem _ mem)) fun _ named =>
        names _ (.inr ⟨field, mem, named⟩)).bind fun fields fields_only => ?_
    exact (constructorOf_confines owner_only fields_only).mono fun _ kept =>
      .of_structure kept.1 kept.2 (by simp [Symbol.withoutLabels])
  | sort name =>
    have allows := sanctions.sorts (List.mem_singleton_self _)
    exact (sorts allows).bind fun _ _ => confines_pure
      (.of_structure (Ty.mentionsOnly_sort.mpr allows) rfl (by simp [Symbol.withoutLabels]))

end Types

section Declarations

variable {name : String} {world : World}

theorem Confined.declare {registry : Registry} {type : Ty} (confined : Confined resolve allowed world)
    (only : type.MentionsOnly allowed) (of_kind : OfKind resolve name type)
    (declare_eq : world.registry.declare world.store name type = .ok registry) :
    Confined resolve allowed { world with registry } := by
  obtain ⟨-, rfl⟩ | ⟨-, rfl⟩ := Registry.declare_inv declare_eq
  · refine ⟨confined.bodies, fun other found found_eq => ?_, fun layer mem => ?_⟩
    · replace found_eq := (Registry.lookup?_insert other).symm.trans found_eq
      split at found_eq
      · next same =>
        obtain rfl := Option.some.inj found_eq
        exact ⟨only, same ▸ of_kind⟩
      · exact confined.declared found_eq
    · rcases List.mem_cons.mp mem with rfl | mem
      · exact confined.constructors world.registry.own (List.mem_cons_self ..)
      · exact confined.constructors layer (List.mem_cons_of_mem _ mem)
  · exact confined

theorem declare_confines {type : Ty} (only : type.MentionsOnly allowed)
    (of_kind : OfKind resolve name type) :
    Confines resolve allowed (Building.register (·.declare · name type)) fun _ => True := by
  refine fun world confined => Building.meets_register.mpr ?_
  split
  · next declare_eq => exact ⟨confined.declare only of_kind declare_eq, trivial⟩
  · trivial

theorem declareConstructor_confines {constructor : Constructor Ty}
    (only : (Ty.constructor constructor).MentionsOnly allowed)
    (not_alias : ¬IsAlias resolve constructor.owner.name) :
    Confines resolve allowed (Building.register (·.declareConstructor · constructor))
      fun _ => True := by
  refine fun world confined => Building.meets_register.mpr ?_
  split
  · next declare_eq =>
    obtain ⟨declared, _, owner_eq, -, ⟨-, rfl⟩ | ⟨-, rfl⟩⟩ :=
      Registry.declareConstructor_inv declare_eq
    · exact ⟨confined.declare (Ty.mentionsOnly_constructor.mp only).1 (.inl ⟨rfl, not_alias⟩)
        owner_eq, trivial⟩
    · have confined := confined.declare (Ty.mentionsOnly_constructor.mp only).1
        (.inl ⟨rfl, not_alias⟩) owner_eq
      refine ⟨⟨confined.bodies, fun _ _ found_eq => confined.declared found_eq,
        fun layer layer_mem other found mem => ?_⟩, trivial⟩
      rcases List.mem_cons.mp layer_mem with rfl | layer_mem
      · rcases Layer.mem_constructorsOf_append.mp mem with mem | ⟨-, rfl⟩
        · exact confined.constructors declared.own (List.mem_cons_self ..) mem
        · exact only
      · exact confined.constructors layer (List.mem_cons_of_mem _ layer_mem) mem
  · trivial

theorem declareConstructors_confines {fieldsOf : List Symbol → Building (List (Field Ty))}
    {owner : DataRef Ty} {productions : List Production}
    (owner_only : (Ty.dataRef owner).MentionsOnly allowed) (not_alias : ¬IsAlias resolve owner.name)
    (fields : ∀ production ∈ productions, production.name.isSome = true →
      Confines resolve allowed (fieldsOf production.symbols)
        fun fields => ∀ field ∈ fields, field.type.MentionsOnly allowed) :
    Confines resolve allowed (declareConstructors fieldsOf owner productions) fun _ => True := by
  induction productions with
  | nil => exact confines_pure trivial
  | cons production productions ih =>
    obtain ⟨head, tail⟩ := List.forall_mem_cons.mp fields
    rw [declareConstructors]
    cases name_eq : production.name with
    | none => exact ih tail
    | some constructorName =>
      refine (head (by simp [name_eq])).bind fun fields fields_only =>
        (confines_make Making.confines_newConstructor).bind fun constructor made => ?_
      refine (declareConstructor_confines ?_ (made.1 ▸ not_alias)).bind fun _ _ => ih tail
      rw [Ty.mentionsOnly_constructor, made.1, made.2]
      exact ⟨owner_only, fields_only⟩

theorem declareData_confines {fieldsOf : List Symbol → Building (List (Field Ty))}
    {formals : List Ty} {alternatives : OrderedSet Production}
    (allows : allowed (.dataRef name)) (not_alias : ¬IsAlias resolve name)
    (formals_only : ∀ formal ∈ formals, formal.MentionsOnly allowed)
    (fields : ∀ production ∈ alternatives.toList, production.name.isSome = true →
      Confines resolve allowed (fieldsOf production.symbols)
        fun fields => ∀ field ∈ fields, field.type.MentionsOnly allowed) :
    Confines resolve allowed (declareData fieldsOf name formals alternatives) fun result =>
      result.MentionsOnly allowed ∧ OfKind resolve name result := by
  refine (confines_make Making.confines_newData).bind fun declared made => ?_
  obtain ⟨name_eq, parameters_eq⟩ := made
  have only : (Ty.dataRef declared).MentionsOnly allowed := by
    rw [Ty.mentionsOnly_dataRef, name_eq, parameters_eq]
    exact ⟨formals_only, allows⟩
  have of_kind : OfKind resolve name (.dataRef declared) := .inl ⟨rfl, not_alias⟩
  refine (declare_confines only of_kind).bind fun _ _ => ?_
  exact (declareConstructors_confines only (name_eq ▸ not_alias) fields).bind fun _ _ =>
    confines_pure ⟨only, of_kind⟩

theorem fillSlot_confines {declared : AliasRef Ty} {body : Ty} (only : body.MentionsOnly allowed) :
    Confines resolve allowed (fillSlot name declared body) fun _ => True := by
  refine fun world confined => meets_fillSlot.mpr ?_
  split
  · next store fill_eq =>
    refine ⟨⟨fun other known known_eq => ?_, confined.declared, confined.constructors⟩, trivial⟩
    replace known_eq := (Store.body?_of_fill? fill_eq other).symm.trans known_eq
    split at known_eq
    · exact Option.some.inj known_eq ▸ only
    · exact confined.bodies known_eq
  · trivial

theorem declareAlias_confines {typeOf : Symbol → Building Ty} {formals : List Ty}
    {alternatives : OrderedSet Production} (allows : allowed (.aliasRef name))
    (is_alias : IsAlias resolve name) (formals_only : ∀ formal ∈ formals, formal.MentionsOnly allowed)
    (body : ∀ symbol, bodySymbol? alternatives = some symbol →
      Confines resolve allowed (typeOf symbol) (Ty.MentionsOnly allowed)) :
    Confines resolve allowed (declareAlias typeOf name formals alternatives) fun result =>
      result.MentionsOnly allowed ∧ OfKind resolve name result := by
  rw [declareAlias_eq]
  refine (confines_make (Making.confines_newAlias nofun)).bind fun declared made => ?_
  have only : (Ty.aliasRef declared).MentionsOnly allowed := by
    rw [Ty.mentionsOnly_aliasRef, made.1, made.2]
    exact ⟨formals_only, allows⟩
  have of_kind : OfKind resolve name (.aliasRef declared) := .inr ⟨rfl, is_alias⟩
  refine (declare_confines only of_kind).bind fun _ _ => ?_
  have body_confines : Confines resolve allowed (bodyType typeOf alternatives)
      (Ty.MentionsOnly allowed) := by
    unfold bodyType
    split
    · next symbol symbol_eq => exact body symbol symbol_eq
    · exact confines_pure Ty.mentionsOnly_prim
  exact body_confines.bind fun body body_only => (fillSlot_confines body_only).bind fun _ _ =>
    confines_pure ⟨only, of_kind⟩

end Declarations

section Names

theorem sortWith_confines (name : String) :
    Confines resolve allowed (sortWith resolve name) fun _ => True := by
  unfold sortWith
  split
  · exact fun world confined => Building.meets_register.mpr
      ⟨⟨confined.bodies, confined.declared, fun layer mem => by
        rcases List.mem_cons.mp mem with rfl | mem
        · exact confined.constructors world.registry.own (List.mem_cons_self ..)
        · exact confined.constructors layer (List.mem_cons_of_mem _ mem)⟩, trivial⟩
  · exact confines_pure trivial

theorem namedWith_confines {expand : String → Symbol → Building Ty} {name : String}
    (allows : Allows resolve allowed name)
    (expands : ∀ production, (resolve name).first? = some production →
      Confines resolve allowed (expand name production.subject) fun result =>
        result.MentionsOnly allowed ∧ OfKind resolve name result) :
    NamesConfined resolve allowed (namedWith resolve expand) name := by
  intro actuals actuals_only
  refine confines_get.bind fun world confined => ?_
  split
  · next declared lookup_eq =>
    obtain ⟨only, of_kind⟩ := confined.declared lookup_eq
    exact applied_confines only of_kind actuals_only
  · split
    · next production first_eq =>
      exact (expands production first_eq).bind fun declared ⟨only, of_kind⟩ =>
        applied_confines only of_kind actuals_only
    · next none_eq =>
      have not_alias : ¬IsAlias resolve name := fun is_alias => first?_of_isAlias is_alias none_eq
      refine (confines_make Making.confines_newData).bind fun reference made =>
        confines_pure ⟨?_, .inl ⟨rfl, not_alias⟩⟩
      rw [Ty.mentionsOnly_dataRef, made.1, made.2]
      exact ⟨actuals_only, allows.1 not_alias⟩

/-- Expanding a name mentions nothing but what is allowed if the symbols to which the name leads
lead to no others. -/
theorem expandWithin_confines (depth : Nat) {name : String} {production : Production}
    (first_eq : (resolve name).first? = some production) (allows : Allows resolve allowed name)
    (sanctions : ∀ other, Relation.ReflTransGen (Leads resolve) name other →
      ∀ symbol ∈ formalsOf resolve other ++ contentsOf resolve other,
        Sanctions resolve allowed symbol) :
    Confines resolve allowed (expandWithin resolve depth name production.subject) fun result =>
      result.MentionsOnly allowed ∧ OfKind resolve name result := by
  induction depth generalizing name production with
  | zero => exact confines_throw
  | succ depth ih =>
    have part_confines {symbol : Symbol}
        (mem : symbol ∈ formalsOf resolve name ++ contentsOf resolve name) :
        Confines resolve allowed (typeWith (namedWith resolve (expandWithin resolve depth))
          (sortWith resolve) symbol) (Renders resolve allowed symbol) := by
      have symbol_sanctions := sanctions name .refl symbol mem
      refine typeWith_confines (fun _ _ => sortWith_confines _) symbol_sanctions fun other names => ?_
      refine namedWith_confines (symbol_sanctions.names names) fun _ other_eq => ?_
      exact ih other_eq (symbol_sanctions.names names) fun last path =>
        sanctions last (path.head ⟨symbol, mem, names⟩)
    have formals_confine {parameters : List Symbol} (formals_eq : formalsOf resolve name = parameters) :
        Confines resolve allowed (typesWith (namedWith resolve (expandWithin resolve depth))
          (sortWith resolve) parameters) fun results => ∀ type ∈ results, type.MentionsOnly allowed :=
      typesWith_confines fun symbol mem =>
        part_confines (List.mem_append_left _ (formals_eq ▸ mem))
    have data_confines {formals : List Ty} (formals_only : ∀ type ∈ formals, type.MentionsOnly allowed)
        (no_alias : ∀ other parameters, production.subject.withoutLabels ≠ .aliasRef other parameters) :
        Confines resolve allowed (declareData (fieldsWith (namedWith resolve
          (expandWithin resolve depth)) (sortWith resolve)) name formals (resolve name)) fun result =>
            result.MentionsOnly allowed ∧ OfKind resolve name result := by
      have not_alias : ¬IsAlias resolve name := by
        rintro ⟨other, parameters, subject_eq⟩
        exact no_alias other parameters (by simpa [subjectOf?, first_eq] using subject_eq)
      refine declareData_confines (allows.1 not_alias) not_alias formals_only
        fun alternative mem named => fieldsWith_confines fun symbol symbol_mem =>
          part_confines (List.mem_append_right _ ?_)
      rw [contentsOf_eq_of_not_alias first_eq no_alias]
      exact List.mem_flatMap.mpr ⟨alternative, List.mem_filter.mpr ⟨mem, named⟩, symbol_mem⟩
    rw [expandWithin]
    split
    · next other parameters subject_eq =>
      have is_alias : IsAlias resolve name :=
        ⟨other, parameters, by simp [subjectOf?, first_eq, subject_eq]⟩
      refine (formals_confine (formalsOf_eq_of_alias first_eq subject_eq)).bind
        fun formals formals_only => declareAlias_confines (allows.2 is_alias) is_alias formals_only
          fun symbol body_eq => (part_confines (List.mem_append_right _ ?_)).mono fun _ => And.left
      rw [contentsOf_eq_of_alias first_eq subject_eq, body_eq]
      exact List.mem_singleton_self _
    · next other parameters subject_eq =>
      exact (formals_confine (formalsOf_eq_of_data first_eq subject_eq)).bind
        fun formals formals_only => data_confines formals_only (by simp [subject_eq])
    · next no_alias no_data => exact data_confines (List.forall_mem_nil _) no_alias

/-- A reconstruction mentions nothing but what is allowed if the symbols which it goes through lead
to no others. -/
theorem typeWithin_confines (depth : Nat) {symbol : Symbol}
    (sanctions : ∀ visited, GoesThrough resolve symbol visited →
      Sanctions resolve allowed visited) :
    Confines resolve allowed (typeWithin resolve depth symbol) (Renders resolve allowed symbol) := by
  have symbol_sanctions := sanctions symbol (.inl rfl)
  refine typeWith_confines (fun _ _ => sortWith_confines _) symbol_sanctions fun name names => ?_
  refine namedWith_confines (symbol_sanctions.names names) fun _ first_eq => ?_
  exact expandWithin_confines depth first_eq (symbol_sanctions.names names) fun other path visited mem =>
    sanctions visited (.inr ⟨other, ⟨name, names, path⟩, mem⟩)

end Names

theorem confined_fresh (resolve : Resolver) (allowed : Mention → Prop) :
    Confined resolve allowed {} where
  bodies _ _ body_eq := by simp [Store.body?] at body_eq
  declared _ _ lookup_eq := nomatch lookup_eq
  constructors layer mem _ _ found := by
    obtain rfl := List.mem_singleton.mp mem
    exact absurd found (List.not_mem_nil)

end Reconstruct

end Reification
