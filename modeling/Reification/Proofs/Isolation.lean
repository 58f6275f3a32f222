import Reification.Proofs.Confinement
import Reification.Proofs.Invariant
import Reification.Proofs.Occurrences
import Reification.Reconstruct.ConstructorType

/-!
# Constructors of single productions

A production which is reconstructed in isolation finds its own data type under one name and nothing
under any other.  No alias is made then, every other name stays opaque, and the data type has no
constructor before its fields are known.  So the constructor which is found in the end is the one
that the production describes, and its fields are read off the symbols.

Whether the computation ends is no question of its fields: it does if the formal parameters of the
data type do not lead back to it.
-/

namespace Reification

open Reconstruct

/-- Whether a mention is not that of an alias. -/
def Mention.IsPlain : Mention → Prop
  | .aliasRef _ => False
  | _ => True

/-- A type without aliases. -/
abbrev Ty.Plain (type : Ty) : Prop := type.MentionsOnly Mention.IsPlain

namespace Ty

theorem Plain.not_aliasRef {reference : AliasRef Ty} : ¬(aliasRef reference).Plain :=
  fun plain => (mentionsOnly_aliasRef.mp plain).2

theorem Plain.allAliases {type : Ty} (plain : type.Plain) : type.AllAliases fun _ => False := by
  induction type using Ty.induction with
  | prim | sort => simp
  | list _ ih | set _ ih | reified _ ih | parameter _ _ ih => exact ih plain
  | map _ _ ih_key ih_value =>
    obtain ⟨key_plain, value_plain⟩ := mentionsOnly_map.mp plain
    exact (allAliases_map _ _).mpr ⟨ih_key key_plain, ih_value value_plain⟩
  | tuple _ ih =>
    exact (allAliases_tuple _).mpr fun field mem =>
      ih field mem (mentionsOnly_tuple.mp plain field mem)
  | func _ _ ih ih_arguments =>
    obtain ⟨result_plain, arguments_plain⟩ := mentionsOnly_func.mp plain
    exact (allAliases_func _ _).mpr ⟨ih result_plain, fun field mem =>
      ih_arguments field mem (arguments_plain field mem)⟩
  | dataRef _ _ _ ih =>
    exact (allAliases_dataRef _).mpr fun part mem =>
      ih part mem ((mentionsOnly_dataRef.mp plain).1 part mem)
  | aliasRef => exact absurd plain Plain.not_aliasRef
  | constructor _ _ _ _ _ _ _ ih ih_fields =>
    obtain ⟨owner_plain, fields_plain⟩ := mentionsOnly_constructor.mp plain
    exact (allAliases_constructor _).mpr ⟨fun part mem =>
      ih part mem ((mentionsOnly_dataRef.mp owner_plain).1 part mem), fun field mem =>
        ih_fields field mem (fields_plain field mem)⟩

end Ty

/-- Types without aliases compare alike in all stores. -/
theorem Store.sameAll_of_plain {store other : Store} {lefts rights : List Ty} {answer : Bool}
    (left_plain : ∀ left ∈ lefts, left.Plain) (right_plain : ∀ right ∈ rights, right.Plain)
    (found : store.sameAll lefts rights = some answer) : other.sameAll lefts rights = some answer :=
  Ty.sameAllWith_mono (P := fun _ => False)
    (fun left mem _ _ right_all => Ty.sameWith_mono (fun _ _ _ none _ _ => none.elim)
      (left_plain left mem).allAliases right_all)
    (fun right mem => (right_plain right mem).allAliases) found

/-- Whether a data type is the one to which the constructors of a type belong: the type itself, or
else one that is made up from its name or its text. -/
def Ty.OwnsAs : Ty → DataRef Ty → Prop
  | .dataRef declared, owner => owner = declared
  | other, owner =>
    owner.name = other.name?.getD other.display ∧ owner.parameters = other.parameters

namespace Symbol

mutual

/-- Whether a type is the one which a symbol describes, where `stands` tells which types the names
in it stand for with given actual parameters.  Labels count only where they are those of fields. -/
inductive Portrays (stands : String → List Ty → Ty → Prop) : Symbol → Ty → Prop
  | prim (primitive : Primitive) : Portrays stands (.prim primitive) (.prim primitive)
  | label (name : String) {inner : Symbol} {type : Ty} :
    Portrays stands inner type → Portrays stands (.label name inner) type
  | list {element : Symbol} {type : Ty} :
    Portrays stands element type → Portrays stands (.list element) (.list type)
  | set {element : Symbol} {type : Ty} :
    Portrays stands element type → Portrays stands (.set element) (.set type)
  | map {key value : Symbol} {keyType valueType : Ty} : Portrays stands key keyType →
    Portrays stands value valueType → Portrays stands (.map key value) (.map keyType valueType)
  | tuple {symbols : List Symbol} {fields : List (Field Ty)} :
    PortraysFields stands symbols fields → Portrays stands (.tuple symbols) (.tuple fields)
  | func {result : Symbol} {type : Ty} {arguments : List Symbol} {fields : List (Field Ty)} :
    Portrays stands result type → PortraysFields stands arguments fields →
    Portrays stands (.func result arguments) (.func type fields)
  | reified {inner : Symbol} {type : Ty} :
    Portrays stands inner type → Portrays stands (.reified inner) (.reified type)
  | parameter (name : String) {bound : Symbol} {type : Ty} :
    Portrays stands bound type → Portrays stands (.parameter name bound) (.parameter name type)
  | dataRef {name : String} {parameters : List Symbol} {actuals : List Ty} {type : Ty} :
    PortraysAll stands parameters actuals → stands name actuals type →
    Portrays stands (.dataRef name parameters) type
  | aliasRef {name : String} {parameters : List Symbol} {actuals : List Ty} {type : Ty} :
    PortraysAll stands parameters actuals → stands name actuals type →
    Portrays stands (.aliasRef name parameters) type
  | constructor (object : Nat) (name : String) {owner : Symbol} {type : Ty} {reference : DataRef Ty}
    {symbols : List Symbol} {fields : List (Field Ty)} : Portrays stands owner type →
    type.OwnsAs reference → PortraysFields stands symbols fields →
    Portrays stands (.constructor owner name symbols)
      (.constructor ⟨object, reference, name, fields, ∅⟩)
  | sort (name : String) : Portrays stands (.sort name) (.sort name)

/-- Whether some types are those which some symbols describe. -/
inductive PortraysAll (stands : String → List Ty → Ty → Prop) : List Symbol → List Ty → Prop
  | nil : PortraysAll stands [] []
  | cons {symbol : Symbol} {type : Ty} {symbols : List Symbol} {types : List Ty} :
    Portrays stands symbol type → PortraysAll stands symbols types →
    PortraysAll stands (symbol :: symbols) (type :: types)

/-- Whether some fields are those which some symbols describe, under their outermost labels. -/
inductive PortraysFields (stands : String → List Ty → Ty → Prop) :
    List Symbol → List (Field Ty) → Prop
  | nil : PortraysFields stands [] []
  | cons {symbol : Symbol} {type : Ty} {symbols : List Symbol} {fields : List (Field Ty)} :
    Portrays stands symbol type → PortraysFields stands symbols fields →
    PortraysFields stands (symbol :: symbols) (⟨symbol.label?, type⟩ :: fields)

end

variable {stands : String → List Ty → Ty → Prop}

theorem PortraysAll.forall₂ {symbols : List Symbol} {types : List Ty}
    (portrays : PortraysAll stands symbols types) :
    List.Forall₂ (Portrays stands) symbols types := by
  induction symbols generalizing types with
  | nil =>
    cases portrays
    exact .nil
  | cons symbol symbols ih =>
    cases portrays with
    | cons head tail => exact .cons head (ih tail)

theorem PortraysFields.forall₂ {symbols : List Symbol} {fields : List (Field Ty)}
    (portrays : PortraysFields stands symbols fields) :
    List.Forall₂ (fun symbol field => field.label = symbol.label? ∧
      symbol.Portrays stands field.type) symbols fields := by
  induction symbols generalizing fields with
  | nil =>
    cases portrays
    exact .nil
  | cons symbol symbols ih =>
    cases portrays with
    | cons head tail => exact .cons ⟨rfl, head⟩ (ih tail)

end Symbol

/-- The type of a name of which nothing is known. -/
def Opaque (name : String) (actuals : List Ty) (type : Ty) : Prop :=
  ∃ object, type = .dataRef ⟨object, name, actuals⟩

/-- What a name stands for in the fields of a constructor: every name but that of the data type
stays opaque. -/
structure StandsFor (owner : DataRef Ty) (name : String) (actuals : List Ty) (type : Ty) :
    Prop where
  other : name ≠ owner.name → Opaque name actuals type
  /-- The data type without actual parameters, or with some that equal the formal ones, is the very
  object which owns the constructor. -/
  self : name = owner.name →
    (actuals = [] ∨ ∃ store : Store, store.sameAll actuals owner.parameters = some true) →
    type = .dataRef owner
  applied : name = owner.name → type = .dataRef owner ∨ ∃ before after,
    ((Ty.dataRef owner).instantiate (.ofParameters owner.parameters actuals)).run before =
      some (type, after)

namespace Reconstruct

open Building

/-- Whether a world knows nothing but a data type of some name, or not even that, and neither
constructors nor aliases. -/
structure Isolated (owner : String) (declared : Option (DataRef Ty)) (world : World) : Prop where
  bodies : world.store.Confined Mention.IsPlain
  inherited_eq : world.registry.inherited = []
  lookup?_eq : ∀ name, world.registry.lookup? name =
    if name = owner then declared.map .dataRef else none
  constructorsOf_eq : ∀ name, world.registry.own.constructorsOf name = []

variable {α : Type} {owner : String} {declared : Option (DataRef Ty)} {post : α → Prop}

theorem make_yields {making : Making α} (confines : Making.Confines Mention.IsPlain making post) :
    Yields (Isolated owner declared) (make making) fun result =>
      post result ∧ ∃ before after, making.run before = some (result, after) :=
  yields_make (fun _ isolated => isolated.bodies)
    (fun _ _ isolated bodies => { isolated with bodies }) confines

section Parts

variable {name : String} {actuals : List Ty} {fields : List (Field Ty)}

theorem newData_yields (plain : ∀ actual ∈ actuals, actual.Plain) :
    Yields (Isolated owner declared) (make (Making.newData name actuals)) fun made =>
      made = ⟨made.object, name, actuals⟩ ∧ (Ty.dataRef made).Plain := by
  have confines : Making.Confines Mention.IsPlain (Making.newData name actuals) fun made =>
      made = ⟨made.object, name, actuals⟩ := fun _ confined => ⟨confined, rfl⟩
  refine (make_yields confines).mono fun made ⟨made_eq, _⟩ => ⟨made_eq, ?_⟩
  rw [made_eq]
  exact Ty.mentionsOnly_dataRef.mpr ⟨plain, trivial⟩

theorem newConstructor_yields {reference : DataRef Ty} {attributes : OrderedSet Attribute} :
    Yields (Isolated owner declared)
      (make (Making.newConstructor reference name fields attributes)) fun made =>
        made = ⟨made.object, reference, name, fields, attributes⟩ := by
  have confines : Making.Confines Mention.IsPlain
      (Making.newConstructor reference name fields attributes) fun made =>
        made = ⟨made.object, reference, name, fields, attributes⟩ :=
    fun _ confined => ⟨confined, rfl⟩
  exact (make_yields confines).mono fun _ => And.left

theorem applied_yields {reference : DataRef Ty} (plain : (Ty.dataRef reference).Plain)
    (actuals_plain : ∀ actual ∈ actuals, actual.Plain) :
    Yields (Isolated owner declared) (applied (.dataRef reference) actuals) fun type =>
      StandsFor reference reference.name actuals type ∧ type.Plain := by
  have parameters_plain := (Ty.mentionsOnly_dataRef.mp plain).1
  have itself : StandsFor reference reference.name actuals (.dataRef reference) :=
    ⟨fun differ => absurd rfl differ, fun _ _ => rfl, fun _ => .inl rfl⟩
  unfold applied
  split
  · exact yields_pure ⟨itself, plain⟩
  · next nonempty =>
    refine yields_ask.bind ?_
    rintro equal ⟨world, -, found⟩
    cases equal with
    | true => exact yields_pure ⟨itself, plain⟩
    | false =>
      refine (make_yields (Ty.instantiate_confines (Ty.bindsOnly_ofParameters _ actuals_plain)
        plain)).mono ?_
      rintro type ⟨type_plain, instantiated⟩
      refine ⟨⟨fun differ => absurd rfl differ, ?_, fun _ => .inr instantiated⟩, type_plain⟩
      rintro - (rfl | ⟨store, same⟩)
      · exact absurd rfl nonempty
      · have same : world.store.sameAll actuals reference.parameters = some true :=
          Store.sameAll_of_plain actuals_plain parameters_plain same
        exact absurd (found.symm.trans same) (by simp)

theorem ownerOf_yields {type : Ty} (plain : type.Plain) :
    Yields (Isolated owner declared) (ownerOf type) fun reference =>
      type.OwnsAs reference ∧ (Ty.dataRef reference).Plain := by
  cases type with
  | dataRef reference => exact yields_pure ⟨rfl, plain⟩
  | aliasRef => exact absurd plain Ty.Plain.not_aliasRef
  | _ =>
    refine (newData_yields (List.forall_mem_nil _)).mono fun made known => ⟨?_, known.2⟩
    rw [known.1]
    exact ⟨rfl, rfl⟩

/-- As no constructors are known, a constructor is always a new one. -/
theorem constructorOf_yields {reference : DataRef Ty} (plain : (Ty.dataRef reference).Plain)
    (fields_plain : ∀ field ∈ fields, field.type.Plain) :
    Yields (Isolated owner declared) (constructorOf reference name fields) fun type =>
      (∃ object, type = .constructor ⟨object, reference, name, fields, ∅⟩) ∧ type.Plain := by
  refine yields_get_bind fun start _ => yields_ask.bind
    fun constructors ⟨world, isolated, found⟩ => ?_
  obtain rfl : constructors = [] := by
    rw [Registry.constructorsOf_of_inherited_eq isolated.inherited_eq, isolated.constructorsOf_eq]
      at found
    exact (Option.some.inj found).symm
  refine newConstructor_yields.bind fun made made_eq =>
    yields_pure ⟨⟨made.object, congrArg _ made_eq⟩, ?_⟩
  rw [made_eq]
  exact Ty.mentionsOnly_constructor.mpr ⟨plain, fields_plain⟩

theorem sortWith_yields (resolve : Resolver) (name : String) :
    Yields (Isolated owner declared) (sortWith resolve name) fun _ => True := by
  unfold sortWith
  split
  · refine yields_register fun world registry isolated change_eq => ?_
    obtain rfl := Except.ok.inj change_eq
    exact ⟨isolated.bodies, isolated.inherited_eq, isolated.lookup?_eq, isolated.constructorsOf_eq⟩
  · exact yields_pure trivial

end Parts

section Types

variable {stands : String → List Ty → Ty → Prop} {named : String → List Ty → Building Ty}
  {sort : String → Building Unit}

theorem typesWith_yields {symbols : List Symbol}
    (types : ∀ symbol ∈ symbols, Yields (Isolated owner declared) (typeWith named sort symbol)
      fun type => symbol.Portrays stands type ∧ type.Plain) :
    Yields (Isolated owner declared) (typesWith named sort symbols) fun types =>
      Symbol.PortraysAll stands symbols types ∧ ∀ type ∈ types, type.Plain := by
  induction symbols with
  | nil => exact yields_pure ⟨.nil, List.forall_mem_nil _⟩
  | cons symbol symbols ih =>
    obtain ⟨head, tail⟩ := List.forall_mem_cons.mp types
    refine head.bind fun _ first => (ih tail).bind fun _ rest => yields_pure ?_
    exact ⟨.cons first.1 rest.1, List.forall_mem_cons.mpr ⟨first.2, rest.2⟩⟩

theorem fieldsWith_yields {symbols : List Symbol}
    (types : ∀ symbol ∈ symbols, Yields (Isolated owner declared) (typeWith named sort symbol)
      fun type => symbol.Portrays stands type ∧ type.Plain) :
    Yields (Isolated owner declared) (fieldsWith named sort symbols) fun fields =>
      Symbol.PortraysFields stands symbols fields ∧ ∀ field ∈ fields, field.type.Plain := by
  induction symbols with
  | nil => exact yields_pure ⟨.nil, List.forall_mem_nil _⟩
  | cons symbol symbols ih =>
    obtain ⟨head, tail⟩ := List.forall_mem_cons.mp types
    refine head.bind fun _ first => (ih tail).bind fun _ rest => yields_pure ?_
    exact ⟨.cons first.1 rest.1, List.forall_mem_cons.mpr ⟨first.2, rest.2⟩⟩

/-- What a name stands for is found in a world which knows nothing but one data type. -/
def NamesYield (owner : String) (declared : Option (DataRef Ty))
    (stands : String → List Ty → Ty → Prop) (named : String → List Ty → Building Ty)
    (name : String) : Prop :=
  ∀ ⦃actuals⦄, (∀ actual ∈ actuals, actual.Plain) → Yields (Isolated owner declared)
    (named name actuals) fun type => stands name actuals type ∧ type.Plain

/-- The type of a symbol is the one which the symbol describes. -/
theorem typeWith_yields
    (sorts : ∀ name, Yields (Isolated owner declared) (sort name) fun _ => True) {symbol : Symbol}
    (names : ∀ name, symbol.Names name → NamesYield owner declared stands named name) :
    Yields (Isolated owner declared) (typeWith named sort symbol) fun type =>
      symbol.Portrays stands type ∧ type.Plain := by
  induction symbol using Symbol.induction with
  | prim primitive => exact yields_pure ⟨.prim primitive, Ty.mentionsOnly_prim⟩
  | label name _ ih =>
    exact (ih names).mono fun _ known => ⟨.label name known.1, known.2⟩
  | list _ ih => exact (ih names).bind fun _ known => yields_pure ⟨.list known.1, known.2⟩
  | set _ ih => exact (ih names).bind fun _ known => yields_pure ⟨.set known.1, known.2⟩
  | reified _ ih => exact (ih names).bind fun _ known => yields_pure ⟨.reified known.1, known.2⟩
  | parameter name _ ih =>
    exact (ih names).bind fun _ known => yields_pure ⟨.parameter name known.1, known.2⟩
  | map _ _ ih_key ih_value =>
    simp only [Symbol.names_map] at names
    refine (ih_key fun _ named => names _ (.inl named)).bind fun _ key => ?_
    refine (ih_value fun _ named => names _ (.inr named)).bind fun _ value => ?_
    exact yields_pure ⟨.map key.1 value.1, Ty.mentionsOnly_map.mpr ⟨key.2, value.2⟩⟩
  | tuple _ ih =>
    simp only [Symbol.names_tuple] at names
    refine (fieldsWith_yields fun field mem =>
      ih field mem fun _ named => names _ ⟨field, mem, named⟩).bind fun _ fields => ?_
    exact yields_pure ⟨.tuple fields.1, Ty.mentionsOnly_tuple.mpr fields.2⟩
  | func _ _ ih ih_arguments =>
    simp only [Symbol.names_func] at names
    refine (ih fun _ named => names _ (.inl named)).bind fun _ result => ?_
    refine (fieldsWith_yields fun field mem => ih_arguments field mem fun _ named =>
      names _ (.inr ⟨field, mem, named⟩)).bind fun _ fields => ?_
    exact yields_pure ⟨.func result.1 fields.1, Ty.mentionsOnly_func.mpr ⟨result.2, fields.2⟩⟩
  | dataRef name _ ih =>
    simp only [Symbol.names_dataRef] at names
    refine (typesWith_yields fun symbol mem =>
      ih symbol mem fun _ named => names _ (.inr ⟨symbol, mem, named⟩)).bind fun _ actuals => ?_
    exact (names name (.inl rfl) actuals.2).mono fun _ found =>
      ⟨.dataRef actuals.1 found.1, found.2⟩
  | aliasRef name _ ih =>
    simp only [Symbol.names_aliasRef] at names
    refine (typesWith_yields fun symbol mem =>
      ih symbol mem fun _ named => names _ (.inr ⟨symbol, mem, named⟩)).bind fun _ actuals => ?_
    exact (names name (.inl rfl) actuals.2).mono fun _ found =>
      ⟨.aliasRef actuals.1 found.1, found.2⟩
  | constructor _ name _ ih ih_fields =>
    simp only [Symbol.names_constructor] at names
    refine (ih fun _ named => names _ (.inl named)).bind fun _ described => ?_
    refine (ownerOf_yields described.2).bind fun _ owner => ?_
    refine (fieldsWith_yields fun field mem => ih_fields field mem fun _ named =>
      names _ (.inr ⟨field, mem, named⟩)).bind fun _ fields => ?_
    refine (constructorOf_yields owner.2 fields.2).mono ?_
    rintro _ ⟨⟨object, rfl⟩, plain⟩
    exact ⟨.constructor object name described.1 owner.1 fields.1, plain⟩
  | sort name =>
    exact (sorts name).bind fun _ _ =>
      yields_pure ⟨.sort name, Ty.mentionsOnly_sort.mpr trivial⟩

end Types

section Names

variable {resolve : Resolver} {expand : String → Symbol → Building Ty} {name : String}

/-- A name of which nothing is known stays opaque. -/
theorem namedWith_yields_unknown (differ : name ≠ owner) (first_eq : (resolve name).first? = none) :
    NamesYield owner declared Opaque (namedWith resolve expand) name := by
  refine fun actuals plain => yields_get_bind fun world isolated => ?_
  rw [isolated.lookup?_eq, if_neg differ, first_eq]
  refine (newData_yields plain).bind fun made ⟨made_eq, made_plain⟩ =>
    yields_pure ⟨⟨made.object, congrArg _ made_eq⟩, made_plain⟩

/-- A name stands for the data type which is declared, or else it stays opaque. -/
theorem namedWith_yields {reference : DataRef Ty} (plain : (Ty.dataRef reference).Plain)
    (first_eq : name ≠ reference.name → (resolve name).first? = none) :
    NamesYield reference.name (some reference) (StandsFor reference) (namedWith resolve expand)
      name := by
  by_cases same : name = reference.name
  · subst same
    refine fun actuals actuals_plain => yields_get_bind fun world isolated => ?_
    rw [isolated.lookup?_eq, if_pos rfl]
    exact applied_yields plain actuals_plain
  · intro actuals actuals_plain
    refine (namedWith_yields_unknown same (first_eq same) actuals_plain).mono
      fun type known => ⟨⟨fun _ => known.1, ?_, ?_⟩, known.2⟩
    · exact fun equal => absurd equal same
    · exact fun equal => absurd equal same

end Names

end Reconstruct

/-- Whether a registry knows a data type with one constructor and nothing else. -/
structure Registry.Holds (registry : Registry) (constructor : Constructor Ty) : Prop where
  inherited_eq : registry.inherited = []
  lookup?_eq : ∀ name, registry.lookup? name =
    if name = constructor.owner.name then some (.dataRef constructor.owner) else none
  constructorsOf_eq : registry.own.constructorsOf constructor.owner.name = [constructor]

namespace Reconstruct

open Building

variable {world : World}

theorem declare_isolated {reference : DataRef Ty} (isolated : Isolated reference.name none world) :
    (register (·.declare · reference.name (.dataRef reference))).Meets world
      (fun _ after => Isolated reference.name (some reference) after) fun _ _ => False := by
  have undeclared : world.registry.lookup? reference.name = none := by simp [isolated.lookup?_eq]
  refine meets_register.mpr ?_
  rw [Registry.declare_of_undeclared undeclared]
  refine ⟨isolated.bodies, isolated.inherited_eq, fun other => ?_, isolated.constructorsOf_eq⟩
  rw [Registry.lookup?_insert, isolated.lookup?_eq]
  split <;> rfl

theorem declareConstructor_holds {constructor : Constructor Ty}
    (isolated : Isolated constructor.owner.name (some constructor.owner) world) :
    (register (·.declareConstructor · constructor)).Meets world
      (fun _ after => after.registry.Holds constructor) fun _ _ => False := by
  have declared : world.registry.lookup? constructor.owner.name =
      some (.dataRef constructor.owner) := by simp [isolated.lookup?_eq]
  refine meets_register.mpr ?_
  rw [Registry.declareConstructor_eq, Registry.declare_self declared]
  simp only [Registry.constructorsOf_of_inherited_eq isolated.inherited_eq,
    isolated.constructorsOf_eq, Registry.isKnown, List.anyM]
  refine ⟨isolated.inherited_eq, isolated.lookup?_eq, ?_⟩
  simp [Layer.constructorsOf_insert]

/-- A data type whose only alternative is named holds one constructor in the end, with the fields of
the alternative. -/
theorem declareData_holds {owner name : String} {production : Production} {formals : List Ty}
    {fieldsOf : List Symbol → Building (List (Field Ty))} {alternatives : OrderedSet Production}
    {known : DataRef Ty → List (Field Ty) → Prop}
    (isolated : Isolated owner none world) (formals_plain : ∀ formal ∈ formals, formal.Plain)
    (alternatives_eq : alternatives.toList = [production]) (name_eq : production.name = some name)
    (fields : ∀ ⦃reference⦄, reference.name = owner → (Ty.dataRef reference).Plain →
      Yields (Isolated owner (some reference)) (fieldsOf production.symbols) (known reference)) :
    (declareData fieldsOf owner formals alternatives).Meets world (fun _ after =>
      ∃ constructor, after.registry.Holds constructor ∧ constructor.owner.name = owner ∧
        constructor.owner.parameters = formals ∧ constructor.name = name ∧
        constructor.attributes = production.attributes ∧
        known constructor.owner constructor.fields) fun _ _ => True := by
  unfold declareData
  refine (newData_yields formals_plain isolated).bind ?_ fun _ _ => id
  rintro reference after ⟨isolated, reference_eq, plain⟩
  obtain rfl : reference.name = owner := congrArg DataRef.name reference_eq
  refine (declare_isolated isolated).bind (fun _ after isolated => ?_) fun _ _ => False.elim
  simp only [alternatives_eq, declareConstructors, name_eq, bind_assoc]
  refine (fields rfl plain isolated).bind ?_ fun _ _ => id
  rintro types after ⟨isolated, holds⟩
  refine (newConstructor_yields isolated).bind ?_ fun _ _ => id
  rintro constructor after ⟨isolated, constructor_eq⟩
  obtain rfl : constructor.owner = reference := congrArg Constructor.owner constructor_eq
  refine (declareConstructor_holds isolated).bind (fun _ after registered => ?_)
    fun _ _ => False.elim
  refine ⟨constructor, registered, rfl, congrArg DataRef.parameters reference_eq,
    congrArg Constructor.name constructor_eq, congrArg Constructor.attributes constructor_eq, ?_⟩
  rwa [show constructor.fields = types from congrArg Constructor.fields constructor_eq]

/-- Labels do not matter for the type of a symbol. -/
theorem typeWith_withoutLabels (named : String → List Ty → Building Ty)
    (sort : String → Building Unit) (symbol : Symbol) :
    typeWith named sort symbol.withoutLabels = typeWith named sort symbol := by
  induction symbol using Symbol.withoutLabels.induct with
  | case1 name inner ih => simpa only [Symbol.withoutLabels, typeWith] using ih
  | case2 symbol no_label => cases symbol <;> simp_all [Symbol.withoutLabels]

end Reconstruct

namespace Production

open Building Reconstruct

variable {production : Production} {owner name : String}

theorem alternativesOf_alone (production : Production) (owner name : String) :
    (production.alone owner).alternativesOf name =
      if name = owner then OrderedSet.ofList [production] else ∅ := by
  rw [Definitions.alternativesOf, alone, Table.get?_insert, Table.get?_empty]
  by_cases same : name = owner
  · rw [if_pos same, if_pos same]
  · rw [if_neg same, if_neg same]

theorem first?_alone (differ : name ≠ owner) :
    ((production.alone owner).alternativesOf name).first? = none := by
  rw [alternativesOf_alone, if_neg differ]
  rfl

theorem eq_of_first?_alone
    (found : ((production.alone owner).alternativesOf name).first? ≠ none) : name = owner := by
  by_contra differ
  exact found (first?_alone differ)

theorem first?_alone_self :
    ((production.alone owner).alternativesOf owner).first? = some production := by
  rw [alternativesOf_alone, if_pos rfl]
  rfl

/-- Whether a constructor is the one which a production of a data type describes. -/
structure Describes (production : Production) (constructor : Constructor Ty) : Prop where
  name_eq : production.name = some constructor.name
  attributes_eq : constructor.attributes = production.attributes
  owner : ∃ formals, production.subject.withoutLabels = .dataRef constructor.owner.name formals ∧
    List.Forall₂ (Symbol.Portrays Opaque) formals constructor.owner.parameters
  fields : List.Forall₂ (fun symbol field => field.label = symbol.label? ∧
      symbol.Portrays (StandsFor constructor.owner) field.type)
    production.symbols constructor.fields

section Run

variable {formals : List Symbol}

theorem formals_yield (free : ∀ formal ∈ formals, ¬formal.Names owner) (depth : Nat) :
    Yields (Isolated owner none) (typesWithin (production.alone owner).alternativesOf depth formals)
      fun types => Symbol.PortraysAll Opaque formals types ∧ ∀ type ∈ types, type.Plain := by
  refine typesWith_yields fun formal mem => typeWith_yields (sortWith_yields _) fun name names => ?_
  have differ : name ≠ owner := fun same => free formal mem (same ▸ names)
  exact namedWith_yields_unknown differ (first?_alone differ)

theorem fields_yield {reference : DataRef Ty} (plain : (Ty.dataRef reference).Plain) (depth : Nat)
    (symbols : List Symbol) : Yields (Isolated reference.name (some reference))
      (fieldsWithin (production.alone reference.name).alternativesOf depth symbols)
      (Symbol.PortraysFields (StandsFor reference) symbols) :=
  (fieldsWith_yields fun _ _ => typeWith_yields (sortWith_yields _) fun _ _ =>
    namedWith_yields plain first?_alone).mono fun _ => And.left

variable (subject_eq : production.subject.withoutLabels = .dataRef owner formals)
  (free : ∀ formal ∈ formals, ¬formal.Names owner) (name_eq : production.name = some name)

include subject_eq free name_eq

theorem expandWithin_holds (depth : Nat) {world : World} (isolated : Isolated owner none world) :
    (expandWithin (production.alone owner).alternativesOf (depth + 1) owner
      production.subject).Meets world (fun _ after => ∃ constructor,
        after.registry.Holds constructor ∧ production.Describes constructor) fun _ _ => True := by
  simp only [expandWithin, subject_eq]
  refine (formals_yield free depth isolated).bind ?_ fun _ _ => id
  rintro types after ⟨isolated, formals_known, types_plain⟩
  have alternatives_eq :
      ((production.alone owner).alternativesOf owner).toList = [production] := by
    rw [alternativesOf_alone, if_pos rfl]
    rfl
  have fields ⦃reference : DataRef Ty⦄ (owner_eq : reference.name = owner)
      (plain : (Ty.dataRef reference).Plain) : Yields (Isolated owner (some reference))
        (fieldsWithin (production.alone owner).alternativesOf depth production.symbols)
        (Symbol.PortraysFields (StandsFor reference) production.symbols) := by
    subst owner_eq
    exact fields_yield plain depth production.symbols
  refine (declareData_holds isolated types_plain alternatives_eq name_eq fields).mono ?_
    fun _ _ => id
  rintro _ after ⟨constructor, holds, rfl, rfl, rfl, attributes_eq, fields_known⟩
  exact ⟨constructor, holds, name_eq, attributes_eq, ⟨formals, subject_eq, formals_known.forall₂⟩,
    fields_known.forall₂⟩

/-- The formal parameters are reconstructed once more as actual ones, which declares nothing. -/
theorem typeOf_holds {world : World} (isolated : Isolated owner none world) :
    (typeOf (production.alone owner) production.subject).Meets world (fun _ after =>
      ∃ constructor, after.registry.Holds constructor ∧ production.Describes constructor)
      fun _ _ => True := by
  rw [typeOf, typeWithin, ← typeWith_withoutLabels, subject_eq, typeWith]
  refine (formals_yield free _ isolated).bind ?_ fun _ _ => id
  rintro actuals after ⟨isolated, -, -⟩
  have undeclared : after.registry.lookup? owner = none := by simp [isolated.lookup?_eq]
  simp only [namedWith, meets_bind, meets_get, undeclared, first?_alone_self]
  refine (expandWithin_holds subject_eq free name_eq _ isolated).mono ?_ fun _ _ => id
  rintro declared last ⟨constructor, holds, describes⟩
  have keeps : Maintains (fun world => world.registry = last.registry) (applied declared actuals) :=
    applied_closed (closed_maintains fun _ _ _ => id) declared actuals
  refine (keeps.meets rfl).mono (fun _ _ registry_eq => ?_) fun _ _ _ => trivial
  exact ⟨constructor, registry_eq ▸ holds, describes⟩

end Run

section Ending

variable {formals : List Symbol}
  (subject_eq : production.subject.withoutLabels = .dataRef owner formals)
  (free : ∀ formal ∈ formals, ¬formal.Names owner)

include subject_eq

theorem subjectOf?_alone_self :
    subjectOf? (production.alone owner).alternativesOf owner = some (.dataRef owner formals) := by
  rw [subjectOf?, first?_alone_self, Option.map_some, subject_eq]

theorem mem_formalsOf_alone {formal : Symbol}
    (mem : formal ∈ formalsOf (production.alone owner).alternativesOf name) :
    name = owner ∧ formal ∈ formals := by
  obtain rfl := eq_of_first?_alone (first?_of_mem (List.mem_append_left _ mem))
  simp only [formalsOf, subjectOf?_alone_self subject_eq] at mem
  exact ⟨rfl, mem⟩

include free

theorem not_reachesItself_alone :
    ¬ReachesItself (production.alone owner).alternativesOf name := by
  rintro ⟨formal, mem, first, names, path⟩
  obtain ⟨rfl, formal_mem⟩ := mem_formalsOf_alone subject_eq mem
  rcases Relation.ReflTransGen.cases_head path with rfl | ⟨second, ⟨part, part_mem, -⟩, -⟩
  · exact free formal formal_mem names
  · exact free formal formal_mem (eq_of_first?_alone (first?_of_mem part_mem) ▸ names)

theorem terminating_alone : Terminating (production.alone owner).alternativesOf where
  formals_eq_nil name is_alias := by
    obtain rfl := eq_of_first?_alone (first?_of_isAlias is_alias)
    obtain ⟨other, parameters, alias_eq⟩ := is_alias
    exact absurd ((subjectOf?_alone_self subject_eq).symm.trans alias_eq) (by simp)
  acyclic name path := by
    obtain ⟨_, ⟨_, first_mem, _⟩, -⟩ := Relation.TransGen.head'_iff.mp path
    obtain ⟨_, -, formal, mem, names⟩ := Relation.TransGen.tail'_iff.mp path
    obtain ⟨rfl, -⟩ := mem_formalsOf_alone subject_eq first_mem
    exact free formal (mem_formalsOf_alone subject_eq mem).2 names

/-- A production can be reconstructed in isolation if the formal parameters of its data type do not
lead back to it. -/
theorem typeOf_ends : (typeOf (production.alone owner) production.subject).Meets {}
    (fun _ _ => True) fun _ _ => False := by
  have tidies := Setting.fresh_tidies (production.alone owner) production.subject
  have keeps : Keeps (production.alone owner).alternativesOf _ _
      (typeOf (production.alone owner) production.subject) {} := typeWithin_keeps _ _ _
  refine (Meets.and tidies keeps).mono (fun _ _ _ => trivial) ?_
  rintro failure after ⟨⟨-, ends⟩, rfl | ⟨other, existing, offered, -, reaches, -⟩⟩
  · exact ends (terminating_alone subject_eq free) rfl
  · exact not_reachesItself_alone subject_eq free reaches

end Ending

theorem isolated_fresh (owner : String) : Isolated owner none {} where
  bodies _ _ body_eq := by simp [Store.body?] at body_eq
  inherited_eq := rfl
  lookup?_eq name := (ite_self none).symm
  constructorsOf_eq _ := rfl

/-- Whether a production has a name and belongs to a data type. -/
def IsConstructor (production : Production) : Prop :=
  production.name ≠ none ∧
    ∃ owner formals, production.subject.withoutLabels = .dataRef owner formals

/-- The error for a production which describes no constructor. -/
def refusal (production : Production) : Error :=
  .notConstructor (production.subject.withoutLabels.subject?.getD
    production.subject.withoutLabels.describe)

/-- The constructor which has been declared is the one which is asked for. -/
theorem find?_of_holds {constructor : Constructor Ty} {world : World}
    (holds : world.registry.Holds constructor) :
    (ask (·.constructorsOf · constructor.owner.name)).Meets world
      (fun constructors after => after = world ∧
        constructors.find? (·.name = constructor.name) = some constructor) fun _ _ => False := by
  refine meets_ask.mpr ?_
  rw [Registry.constructorsOf_of_inherited_eq holds.inherited_eq, holds.constructorsOf_eq]
  simp

/-- A named production of a data type describes a constructor, if the formal parameters of the data
type do not mention it. -/
theorem constructorType_of_named {formals : List Symbol}
    (subject_eq : production.subject.withoutLabels = .dataRef owner formals)
    (free : ∀ formal ∈ formals, ¬formal.Names owner) (name_eq : production.name = some name) :
    production.constructorType.Meets {} (fun result after => ∃ constructor,
      result = .constructor constructor ∧ production.Describes constructor ∧
        after.registry.Holds constructor) fun _ _ => False := by
  have run := (typeOf_holds subject_eq free name_eq (isolated_fresh owner)).and
    (typeOf_ends subject_eq free)
  simp only [constructorType, constructorName, subject_eq, name_eq]
  refine meets_bind.mpr (meets_discard.mpr (run.mono ?_ fun _ _ failed => failed.2))
  rintro _ after ⟨⟨constructor, holds, describes⟩, -⟩
  obtain ⟨_, described_eq, -⟩ := describes.owner
  obtain ⟨rfl, -⟩ := Symbol.dataRef.inj (subject_eq.symm.trans described_eq)
  obtain rfl := Option.some.inj (name_eq.symm.trans describes.name_eq)
  refine (find?_of_holds holds).bind ?_ fun _ _ => id
  rintro constructors _ ⟨rfl, find_eq⟩
  rw [find_eq]
  exact ⟨constructor, rfl, describes, holds⟩

/-- Any other production is refused at once. -/
theorem run_constructorType_of_not_isConstructor (no_constructor : ¬production.IsConstructor)
    (world : World) :
    production.constructorType.run.run world = (.error (.error production.refusal), world) := by
  have refused_eq : production.constructorName = .error production.refusal := by
    simp only [constructorName]
    split
    · next owner formals name subject_eq name_eq =>
      exact absurd ⟨by simp [name_eq], owner, formals, subject_eq⟩ no_constructor
    · rfl
  simp only [constructorType, refused_eq]
  rfl

end Production

namespace Draft

/-- A label which is lifted from a subject is one of its labels. -/
theorem normalize_withoutLabels (draft : Draft) :
    draft.normalize.subject.withoutLabels = draft.subject.withoutLabels := by
  unfold normalize Production.liftLabel
  split
  · next subject_eq =>
    exact (congrArg Symbol.withoutLabels (subject_eq : draft.subject = _)).symm
  · rfl

/-- However a production is laid out, its constructor type is derived just if it is a named one of a
data type. -/
theorem constructorType_describes (draft : Draft)
    (free : ∀ owner formals, draft.subject.withoutLabels = .dataRef owner formals →
      ∀ formal ∈ formals, ¬formal.Names owner) :
    draft.normalize.constructorType.Meets {}
      (fun result after => draft.normalize.IsConstructor ∧ ∃ constructor,
        result = .constructor constructor ∧ draft.normalize.Describes constructor ∧
          after.registry.Holds constructor)
      fun failure _ => ¬draft.normalize.IsConstructor ∧
        failure = .error draft.normalize.refusal := by
  by_cases is_constructor : draft.normalize.IsConstructor
  · obtain ⟨named, owner, formals, subject_eq⟩ := is_constructor
    obtain ⟨name, name_eq⟩ := Option.ne_none_iff_exists'.mp named
    have free := free owner formals (draft.normalize_withoutLabels.symm.trans subject_eq)
    refine (Production.constructorType_of_named subject_eq free name_eq).mono ?_
      fun _ _ => False.elim
    exact fun _ _ described => ⟨⟨named, owner, formals, subject_eq⟩, described⟩
  · have refused := Production.run_constructorType_of_not_isConstructor is_constructor {}
    exact (Building.meets_iff_of_run_eq_error refused).mpr ⟨is_constructor, rfl⟩

/-- A constructor of trees, whose name is the label of the subject.  Its fields are the data type
itself without and with the formal parameter, another instance, a constructor and a nonterminal of
the same name. -/
def branch : Draft where
  layout := .sort
  subject := .label "branch" (.dataRef "Tree" [.parameter "T" (.prim .value)])
  symbols := [
    .label "left" (.dataRef "Tree" []),
    .label "right" (.aliasRef "Tree" [.parameter "T" (.prim .value)]),
    .label "forest" (.list (.dataRef "Tree" [.aliasRef "Key" []])),
    .label "leaf" (.constructor (.dataRef "Tree" []) "leaf" [.dataRef "Key" [.dataRef "Tree" []]]),
    .sort "Tree"]
  attributes := OrderedSet.ofList [.bracket]

theorem branch_isConstructor : branch.normalize.IsConstructor :=
  ⟨by decide, "Tree", [.parameter "T" (.prim .value)], rfl⟩

theorem branch_describes : branch.normalize.constructorType.Meets {}
    (fun result after => branch.normalize.IsConstructor ∧ ∃ constructor,
      result = .constructor constructor ∧ branch.normalize.Describes constructor ∧
        after.registry.Holds constructor) fun _ _ => False := by
  refine (constructorType_describes branch fun owner formals subject_eq formal mem => ?_).mono
    (fun _ _ => id) fun _ _ failed => failed.1 branch_isConstructor
  obtain ⟨rfl, rfl⟩ := Symbol.dataRef.inj subject_eq
  rw [List.mem_singleton.mp mem]
  simp

example : branch.normalize.constructorType.Meets {} (fun result _ => result.display =
    "Tree[&T]::branch(Tree[&T] left, Tree[&T] right, list[Tree[Key]] forest, " ++
      "Tree[&T]::leaf(Key[Tree[&T]]) leaf, Tree)") fun _ _ => False := by
  decide +kernel

end Draft

end Reification
