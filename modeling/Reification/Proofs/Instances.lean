import Reification.Proofs.Entering
import Reification.Proofs.Instantiation
import Reification.Proofs.Replay

/-!
# Instances

An instance of a type is the type itself, if it is a type parameter which is not bound or has no
parameters to instantiate, or a copy of the same outline whose parts are instances of its parts.
Instantiating a type gives an instance of it and ends, provided that no alias which is entered
reaches itself.
-/

namespace Reification

open Relation (ReflTransGen)

/-- What instantiating a type with some bindings may give. -/
inductive Store.Instantiates (store : Store) (bindings : Bindings) : Ty → Ty → Prop
  | bound {name : String} {bound actual : Ty} (get?_eq : bindings.get? name = some actual) :
    Instantiates store bindings (.parameter name bound) actual
  | free {name : String} (bound : Ty) (get?_eq : bindings.get? name = none) :
    Instantiates store bindings (.parameter name bound) (.parameter name bound)
  | kept {type : Ty} (isCopied_eq : type.isCopied = false)
    (no_parameter : ∀ name bound, type ≠ .parameter name bound) :
    Instantiates store bindings type type
  | copied {type result : Ty} (isCopied_eq : type.isCopied = true)
    (outline_eq : type.outline = result.outline)
    (length_eq : (store.parts type).length = (store.parts result).length)
    (parts : ∀ {part instance_}, (part, instance_) ∈ (store.parts type).zip (store.parts result) →
      Instantiates store bindings part instance_) :
    Instantiates store bindings type result

namespace Heap

variable {α β : Type} {heap wider : Heap} {bindings : Bindings} {type part result : Ty}

/-- Whether all types which are bound exist in a heap. -/
def Binds (heap : Heap) (bindings : Bindings) : Prop :=
  ∀ ⦃name actual⦄, bindings.get? name = some actual → heap.Holds actual

theorem Binds.mono (binds : heap.Binds bindings) (growsTo : heap.GrowsTo wider) :
    wider.Binds bindings := fun _ _ get?_eq => (binds get?_eq).mono growsTo

/-- A computation in a heap ends in a heap which it has extended, with a result as stated. -/
def Makes (heap : Heap) (making : Making α) (post : Heap → α → Prop) : Prop :=
  making.Gives heap.store fun result store =>
    ∃ wider : Heap, heap.GrowsTo wider ∧ wider.store = store ∧ post wider result

section Makes

variable {making : Making α} {post middle : Heap → α → Prop}

theorem makes_pure {result : α} (holds : post heap result) : heap.Makes (pure result) post :=
  Making.gives_pure ⟨heap, .refl heap, rfl, holds⟩

theorem Makes.bind {next : α → Making β} {post : Heap → β → Prop} (first : heap.Makes making middle)
    (second : ∀ wider result, heap.GrowsTo wider → middle wider result →
      wider.Makes (next result) post) : heap.Makes (making >>= next) post := by
  refine Making.Gives.bind first ?_
  rintro result _ ⟨wider, growsTo, rfl, holds⟩
  obtain ⟨last, store, run_eq, widest, later, store_eq, post_holds⟩ :=
    second wider result growsTo holds
  exact ⟨last, store, run_eq, widest, growsTo.trans later, store_eq, post_holds⟩

/-- A computation may be replaced by one which runs alike. -/
theorem makes_of_run_eq {other : Making α}
    (run_eq : making.run heap.store = other.run heap.store) (makes : heap.Makes other post) :
    heap.Makes making post := by
  rwa [Makes, Making.Gives, run_eq]

variable {parameters : List Ty} (hold : ∀ type ∈ parameters, heap.Holds type) (name : String)

include hold

theorem makes_newData : heap.Makes (Making.newData name parameters) fun last reference =>
    reference.name = name ∧ reference.parameters = parameters ∧ last.Known (.dataRef reference) := by
  obtain ⟨last, growsTo, store_eq, known⟩ := heap.exists_makeData hold name
  exact ⟨_, _, rfl, last, growsTo, store_eq, rfl, rfl, known⟩

theorem makes_newAlias {body : Option Ty}
    (body_holds : ∀ known, body = some known → heap.Holds known) :
    heap.Makes (Making.newAlias name parameters body) fun last reference =>
      reference.name = name ∧ reference.parameters = parameters ∧
        last.store.body? reference = body ∧ last.Known (.aliasRef reference) := by
  obtain ⟨last, growsTo, store_eq, known⟩ := heap.exists_makeAlias hold name body body_holds
  exact ⟨_, _, rfl, last, growsTo, store_eq, rfl, rfl,
    store_eq ▸ heap.store.body?_made name parameters body, known⟩

omit hold

theorem makes_newConstructor {owner : DataRef Ty} {fields : List (Field Ty)}
    (owner_known : heap.Known (.dataRef owner)) (hold : ∀ field ∈ fields, heap.Holds field.type)
    (attributes : OrderedSet Attribute) :
    heap.Makes (Making.newConstructor owner name fields attributes) fun last reference =>
      (∃ object, reference = ⟨object, owner, name, fields, attributes⟩) ∧
        last.Known (.constructor reference) := by
  obtain ⟨last, growsTo, store_eq, known⟩ :=
    heap.exists_makeConstructor name owner_known hold attributes
  exact ⟨_, _, rfl, last, growsTo, store_eq, ⟨_, rfl⟩, known⟩

end Makes

/-- Whether a type of a heap is an instance of another one. -/
structure Instantiates (heap : Heap) (bindings : Bindings) (type result : Ty) : Prop where
  holds : heap.Holds type
  result_holds : heap.Holds result
  instantiates : heap.store.Instantiates bindings type result

/-- The instances of fields have the same labels. -/
theorem outline_eq_of_fields {fields results : List (Field Ty)}
    (instances : List.Forall₂ (Field.Rel (heap.Instantiates bindings)) fields results) :
    fields.map (Field.map fun _ => Ty.sort "") = results.map (Field.map fun _ => Ty.sort "") := by
  induction instances with
  | nil => rfl
  | cons head _ ih => rw [List.map_cons, List.map_cons, ih, Field.map, Field.map, head.1]

theorem results_hold {types results : List Ty}
    (instances : List.Forall₂ (heap.Instantiates bindings) types results) :
    ∀ result ∈ results, heap.Holds result := forall_mem_of_forall₂ instances (·.result_holds)

theorem body_holds {body copy : Option Ty}
    (instance_ : Option.Rel (heap.Instantiates bindings) body copy) :
    ∀ result, copy = some result → heap.Holds result := by
  rintro result rfl
  cases instance_ with
  | some instance_ => exact instance_.result_holds

theorem fields_hold {fields results : List (Field Ty)}
    (instances : List.Forall₂ (Field.Rel (heap.Instantiates bindings)) fields results) :
    ∀ field ∈ results, heap.Holds field.type :=
  List.forall_mem_map.mp (results_hold (forall₂_fieldRel_iff.mp instances).2)

namespace Instantiates

theorem mono (instance_ : heap.Instantiates bindings type result)
    (growsTo : heap.GrowsTo wider) : wider.Instantiates bindings type result := by
  obtain ⟨holds, result_holds, instantiates⟩ := instance_
  refine ⟨holds.mono growsTo, result_holds.mono growsTo, ?_⟩
  induction instantiates with
  | bound get?_eq => exact .bound get?_eq
  | free bound get?_eq => exact .free bound get?_eq
  | kept isCopied_eq no_parameter => exact .kept isCopied_eq no_parameter
  | copied isCopied_eq outline_eq length_eq _ ih =>
    refine .copied isCopied_eq outline_eq ?_ fun mem => ?_
    · rw [growsTo.parts_eq holds, growsTo.parts_eq result_holds]
      exact length_eq
    · rw [growsTo.parts_eq holds, growsTo.parts_eq result_holds] at mem
      exact ih mem (holds_of_mem_parts holds (List.of_mem_zip mem).1)
        (holds_of_mem_parts result_holds (List.of_mem_zip mem).2)

theorem body_mono {body copy : Option Ty}
    (instance_ : Option.Rel (heap.Instantiates bindings) body copy)
    (growsTo : heap.GrowsTo wider) : Option.Rel (wider.Instantiates bindings) body copy := by
  cases instance_ with
  | none => exact .none
  | some instance_ => exact .some (instance_.mono growsTo)

/-- A type with the same outline whose parts are instances is an instance. -/
theorem copied (isCopied_eq : type.isCopied = true) (outline_eq : type.outline = result.outline)
    (holds : heap.Holds type) (result_holds : heap.Holds result)
    (parts : List.Forall₂ (heap.Instantiates bindings) (heap.store.parts type)
      (heap.store.parts result)) : heap.Instantiates bindings type result := by
  obtain ⟨length_eq, parts⟩ := List.forall₂_iff_zip.mp parts
  exact ⟨holds, result_holds, .copied isCopied_eq outline_eq length_eq fun mem =>
    (parts mem).instantiates⟩

theorem dataRef {reference made : DataRef Ty} (some : reference.parameters ≠ [])
    (known : heap.Known (.dataRef reference)) (made_known : heap.Known (.dataRef made))
    (name_eq : made.name = reference.name)
    (parameters : List.Forall₂ (heap.Instantiates bindings) reference.parameters made.parameters) :
    heap.Instantiates bindings (.dataRef reference) (.dataRef made) := by
  refine .copied (by simpa [Ty.isCopied] using some) ?_ ((holds_dataRef _).mpr known)
    ((holds_dataRef _).mpr made_known) parameters
  simp [Ty.outline, name_eq, parameters.length_eq]

theorem aliasRef {reference made : AliasRef Ty} (some : reference.parameters ≠ [])
    (known : heap.Known (.aliasRef reference)) (made_known : heap.Known (.aliasRef made))
    (name_eq : made.name = reference.name)
    (parameters : List.Forall₂ (heap.Instantiates bindings) reference.parameters made.parameters)
    (bodies : Option.Rel (heap.Instantiates bindings) (heap.store.body? reference)
      (heap.store.body? made)) :
    heap.Instantiates bindings (.aliasRef reference) (.aliasRef made) := by
  refine .copied (by simpa [Ty.isCopied] using some) ?_ ((holds_aliasRef _).mpr known)
    ((holds_aliasRef _).mpr made_known) ?_
  · simp [Ty.outline, name_eq, parameters.length_eq]
  · rw [Store.parts, Store.parts]
    exact List.rel_append (forall₂_toList bodies) parameters

theorem constructor {reference made : Constructor Ty} (some : reference.owner.parameters ≠ [])
    (known : heap.Known (.constructor reference)) (made_known : heap.Known (.constructor made))
    (owner_eq : made.owner.name = reference.owner.name) (name_eq : made.name = reference.name)
    (parameters : List.Forall₂ (heap.Instantiates bindings) reference.owner.parameters
      made.owner.parameters)
    (fields : List.Forall₂ (Field.Rel (heap.Instantiates bindings)) reference.fields made.fields) :
    heap.Instantiates bindings (.constructor reference) (.constructor made) := by
  refine .copied (by simpa [Ty.isCopied] using some) ?_ ((holds_constructor _).mpr known)
    ((holds_constructor _).mpr made_known)
    (List.rel_append parameters (forall₂_fieldRel_iff.mp fields).2)
  simp [Ty.outline, owner_eq, name_eq, parameters.length_eq, outline_eq_of_fields fields]

/-- An instance of a type which is copied has the same outline, and its parts are instances. -/
theorem of_copied (instance_ : heap.Instantiates bindings type result)
    (isCopied_eq : type.isCopied = true) : type.outline = result.outline ∧
      List.Forall₂ (heap.Instantiates bindings) (heap.store.parts type)
        (heap.store.parts result) := by
  obtain ⟨holds, result_holds, instantiates⟩ := instance_
  cases instantiates with
  | bound | free => cases isCopied_eq
  | kept not_copied => rw [not_copied] at isCopied_eq; cases isCopied_eq
  | copied _ outline_eq length_eq parts =>
    exact ⟨outline_eq, List.forall₂_iff_zip.mpr ⟨length_eq, fun mem =>
      ⟨holds_of_mem_parts holds (List.of_mem_zip mem).1,
        holds_of_mem_parts result_holds (List.of_mem_zip mem).2, parts mem⟩⟩⟩

/-- A type without parameters to instantiate is its own instance. -/
theorem eq_of_kept (instance_ : heap.Instantiates bindings type result)
    (isCopied_eq : type.isCopied = false)
    (no_parameter : ∀ name bound, type ≠ .parameter name bound) :
    result = type := by
  cases instance_.instantiates with
  | bound | free => exact absurd rfl (no_parameter _ _)
  | kept => rfl
  | copied copied => rw [isCopied_eq] at copied; cases copied

theorem eq_of_parameter {name : String} {bound : Ty}
    (instance_ : heap.Instantiates bindings (.parameter name bound) result) :
    result = (bindings.get? name).getD (.parameter name bound) := by
  cases instance_.instantiates with
  | bound get?_eq | free _ get?_eq => rw [get?_eq]; rfl
  | kept _ no_parameter => exact absurd rfl (no_parameter _ _)
  | copied isCopied_eq => cases isCopied_eq

end Instantiates

section Instantiation

variable {body : AliasRef Ty → Making (Option Ty)}

/-- Whether instantiating a type gives an instance of it, also after more references have been
made. -/
def GivesInstance (heap : Heap) (bindings : Bindings) (body : AliasRef Ty → Making (Option Ty))
    (type : Ty) : Prop :=
  ∀ wider, heap.GrowsTo wider → wider.Makes (type.instantiateWith bindings body)
    fun last result => last.Instantiates bindings type result

/-- Whether instantiating an alias with parameters gives an instance of its body. -/
def GivesBody (heap : Heap) (bindings : Bindings) (body : AliasRef Ty → Making (Option Ty))
    (reference : AliasRef Ty) : Prop :=
  reference.parameters ≠ [] → ∀ wider, heap.GrowsTo wider →
    wider.Makes (body reference) fun last result =>
      Option.Rel (last.Instantiates bindings) (heap.store.body? reference) result

theorem makes_instantiateAllWith {types : List Ty}
    (gives : ∀ type ∈ types, heap.GivesInstance bindings body type) (growsTo : heap.GrowsTo wider) :
    wider.Makes (Ty.instantiateAllWith bindings body types) fun last results =>
      List.Forall₂ (last.Instantiates bindings) types results := by
  induction types generalizing wider with
  | nil => exact makes_pure .nil
  | cons type types ih =>
    obtain ⟨head, tail⟩ := List.forall_mem_cons.mp gives
    refine (head wider growsTo).bind fun first result later instance_ => ?_
    refine (ih tail (growsTo.trans later)).bind fun second results last instances => ?_
    exact makes_pure (.cons (instance_.mono last) instances)

theorem makes_instantiateFieldsWith {fields : List (Field Ty)}
    (gives : ∀ field ∈ fields, heap.GivesInstance bindings body field.type)
    (growsTo : heap.GrowsTo wider) :
    wider.Makes (Ty.instantiateFieldsWith bindings body fields) fun last results =>
      List.Forall₂ (Field.Rel (last.Instantiates bindings)) fields results := by
  induction fields generalizing wider with
  | nil => exact makes_pure .nil
  | cons field fields ih =>
    obtain ⟨head, tail⟩ := List.forall_mem_cons.mp gives
    refine (head wider growsTo).bind fun first result later instance_ => ?_
    refine (ih tail (growsTo.trans later)).bind fun second results last instances => ?_
    exact makes_pure (.cons ⟨rfl, instance_.mono last⟩ instances)

/-- Whether instantiating a reference gives an instance of it if instantiating its parts does. -/
theorem givesInstance_dataRef {reference : DataRef Ty} (known : heap.Known (.dataRef reference))
    (parameters : reference.parameters ≠ [] → ∀ type ∈ reference.parameters,
      heap.GivesInstance bindings body type) :
    heap.GivesInstance bindings body (.dataRef reference) := by
  intro wider growsTo
  rw [Ty.instantiateWith_dataRef]
  split
  · next none =>
    have holds := (holds_dataRef reference).mpr (growsTo.known known)
    exact makes_pure ⟨holds, holds, .kept (by simpa [Ty.isCopied] using none) nofun⟩
  · next some =>
    have some : reference.parameters ≠ [] := by simpa using some
    refine (makes_instantiateAllWith (parameters some) growsTo).bind
      fun first actuals later instances => ?_
    refine (makes_newData (results_hold instances) reference.name).bind
      fun second made last holds => ?_
    obtain ⟨name_eq, rfl, made_known⟩ := holds
    exact makes_pure (.dataRef some (((growsTo.trans later).trans last).known known) made_known
      name_eq (instances.imp fun _ _ instance_ => instance_.mono last))

theorem givesInstance_aliasRef {reference : AliasRef Ty} (known : heap.Known (.aliasRef reference))
    (parameters : reference.parameters ≠ [] → ∀ type ∈ reference.parameters,
      heap.GivesInstance bindings body type)
    (bodies : heap.GivesBody bindings body reference) :
    heap.GivesInstance bindings body (.aliasRef reference) := by
  intro wider growsTo
  rw [Ty.instantiateWith_aliasRef]
  split
  · next none =>
    have holds := (holds_aliasRef reference).mpr (growsTo.known known)
    exact makes_pure ⟨holds, holds, .kept (by simpa [Ty.isCopied] using none) nofun⟩
  · next some =>
    have some : reference.parameters ≠ [] := by simpa using some
    refine (makes_instantiateAllWith (parameters some) growsTo).bind
      fun first actuals later instances => ?_
    refine (bodies some first (growsTo.trans later)).bind fun second copy next_ instance_ => ?_
    refine (makes_newAlias (fun type mem => (results_hold instances type mem).mono next_)
      reference.name (body_holds instance_)).bind fun third made last holds => ?_
    obtain ⟨name_eq, rfl, rfl, made_known⟩ := holds
    have grown := ((growsTo.trans later).trans next_).trans last
    refine makes_pure (.aliasRef some (grown.known known) made_known name_eq
      (instances.imp fun _ _ instance_ => instance_.mono (next_.trans last)) ?_)
    rw [grown.body?_eq known]
    exact Instantiates.body_mono instance_ last

theorem givesInstance_constructor {reference : Constructor Ty}
    (known : heap.Known (.constructor reference))
    (parameters : reference.owner.parameters ≠ [] → ∀ type ∈ reference.owner.parameters,
      heap.GivesInstance bindings body type)
    (fields : reference.owner.parameters ≠ [] → ∀ field ∈ reference.fields,
      heap.GivesInstance bindings body field.type) :
    heap.GivesInstance bindings body (.constructor reference) := by
  intro wider growsTo
  rw [Ty.instantiateWith_constructor]
  split
  · next none =>
    have holds := (holds_constructor reference).mpr (growsTo.known known)
    exact makes_pure ⟨holds, holds, .kept (by simpa [Ty.isCopied] using none) nofun⟩
  · next some =>
    have some : reference.owner.parameters ≠ [] := by simpa using some
    refine (makes_instantiateAllWith (parameters some) growsTo).bind
      fun first actuals later instances => ?_
    refine (makes_newData (results_hold instances) reference.owner.name).bind
      fun second owner next_ holds => ?_
    obtain ⟨owner_eq, rfl, owner_known⟩ := holds
    have grown := (growsTo.trans later).trans next_
    refine (makes_instantiateFieldsWith (fields some) grown).bind
      fun third results next_' field_instances => ?_
    refine (makes_newConstructor reference.name (next_'.known owner_known)
      (fields_hold field_instances) reference.attributes).bind fun fourth made last holds => ?_
    obtain ⟨⟨_, rfl⟩, made_known⟩ := holds
    refine makes_pure (.constructor some ((grown.trans (next_'.trans last)).known known) made_known
      owner_eq rfl ?_ ?_)
    · exact instances.imp fun _ _ instance_ => instance_.mono ((next_.trans next_').trans last)
    · exact field_instances.imp fun _ _ instance_ => ⟨instance_.1, instance_.2.mono last⟩

/-- Instantiating a type gives an instance of it if instantiating the bodies of aliases does. -/
theorem givesInstance (binds : heap.Binds bindings)
    (holds : heap.Holds type)
    (bodies : ∀ reference, ReflTransGen heap.store.Enters type (.aliasRef reference) →
      heap.GivesBody bindings body reference) :
    heap.GivesInstance bindings body type := by
  have inner {type part : Ty} (bodies : ∀ reference,
      ReflTransGen heap.store.Enters type (.aliasRef reference) →
        heap.GivesBody bindings body reference) (enters : heap.store.Enters type part) :
      ∀ reference, ReflTransGen heap.store.Enters part (.aliasRef reference) →
        heap.GivesBody bindings body reference :=
    fun reference path => bodies reference (.head enters path)
  induction type using Ty.induction with
  | prim | sort => exact fun _ _ => makes_pure ⟨by simp, by simp, .kept rfl nofun⟩
  | parameter name bound =>
    intro wider growsTo
    refine makes_pure ?_
    rcases get?_eq : bindings.get? name with _ | actual
    · exact ⟨holds.mono growsTo, holds.mono growsTo, .free bound get?_eq⟩
    · exact ⟨holds.mono growsTo, (binds get?_eq).mono growsTo, .bound get?_eq⟩
  | list element ih =>
    intro wider growsTo
    refine (ih holds (inner bodies ⟨rfl, .head _⟩) wider growsTo).bind
      fun _ _ _ instance_ => makes_pure ?_
    exact .copied rfl rfl instance_.holds instance_.result_holds (.cons instance_ .nil)
  | set element ih =>
    intro wider growsTo
    refine (ih holds (inner bodies ⟨rfl, .head _⟩) wider growsTo).bind
      fun _ _ _ instance_ => makes_pure ?_
    exact .copied rfl rfl instance_.holds instance_.result_holds (.cons instance_ .nil)
  | reified element ih =>
    intro wider growsTo
    refine (ih holds (inner bodies ⟨rfl, .head _⟩) wider growsTo).bind
      fun _ _ _ instance_ => makes_pure ?_
    exact .copied rfl rfl instance_.holds instance_.result_holds (.cons instance_ .nil)
  | map key value ih_key ih_value =>
    obtain ⟨key_holds, value_holds⟩ := (holds_map _ _).mp holds
    intro wider growsTo
    refine (ih_key key_holds (inner bodies ⟨rfl, .head _⟩) wider growsTo).bind
      fun first keyResult later keys => ?_
    refine (ih_value value_holds (inner bodies ⟨rfl, .tail _ (.head _)⟩) first
      (growsTo.trans later)).bind fun second valueResult last values => makes_pure ?_
    have keys := keys.mono last
    exact .copied rfl rfl ((holds_map _ _).mpr ⟨keys.holds, values.holds⟩)
      ((holds_map _ _).mpr ⟨keys.result_holds, values.result_holds⟩) (.cons keys (.cons values .nil))
  | tuple fields ih =>
    have hold := (holds_tuple fields).mp holds
    intro wider growsTo
    have gives (field : Field Ty) (mem : field ∈ fields) :=
      ih field mem (hold field mem) (inner bodies ⟨rfl, List.mem_map_of_mem mem⟩)
    refine (makes_instantiateFieldsWith gives growsTo).bind fun first results later instances => ?_
    refine makes_pure (.copied rfl (congrArg Ty.tuple (outline_eq_of_fields instances))
      (holds.mono (growsTo.trans later)) ((holds_tuple _).mpr (fields_hold instances)) ?_)
    exact (forall₂_fieldRel_iff.mp instances).2
  | func result arguments ih ih_arguments =>
    obtain ⟨result_holds, arguments_hold⟩ := (holds_func _ _).mp holds
    have gives (field : Field Ty) (mem : field ∈ arguments) :=
      ih_arguments field mem (arguments_hold field mem)
        (inner bodies ⟨rfl, .tail _ (List.mem_map_of_mem mem)⟩)
    intro wider growsTo
    refine (ih result_holds (inner bodies ⟨rfl, .head _⟩) wider growsTo).bind
      fun first made later instance_ => ?_
    refine (makes_instantiateFieldsWith gives (growsTo.trans later)).bind
      fun second results last instances => ?_
    have instance_ := instance_.mono last
    refine makes_pure (.copied rfl (congrArg (Ty.func _) (outline_eq_of_fields instances))
      (holds.mono ((growsTo.trans later).trans last))
      ((holds_func _ _).mpr ⟨instance_.result_holds, fields_hold instances⟩) ?_)
    exact .cons instance_ (forall₂_fieldRel_iff.mp instances).2
  | dataRef object name parameters ih =>
    have known := (holds_dataRef _).mp holds
    refine givesInstance_dataRef known fun some type mem => ?_
    have isCopied_eq : (Ty.dataRef ⟨object, name, parameters⟩).isCopied = true := by
      simpa [Ty.isCopied] using some
    exact ih type mem (holds_of_mem_parameters known mem) (inner bodies ⟨isCopied_eq, mem⟩)
  | aliasRef object name parameters ih =>
    have known := (holds_aliasRef _).mp holds
    refine givesInstance_aliasRef known (fun some type mem => ?_) (bodies _ .refl)
    have isCopied_eq : (Ty.aliasRef ⟨object, name, parameters⟩).isCopied = true := by
      simpa [Ty.isCopied] using some
    exact ih type mem (holds_of_mem_parameters_alias known mem)
      (inner bodies ⟨isCopied_eq, List.mem_append_right _ mem⟩)
  | constructor object owner ownerName parameters name fields attributes ih ih_fields =>
    have known := (holds_constructor _).mp holds
    have isCopied_eq (some : parameters ≠ []) : (Ty.constructor
        ⟨object, ⟨owner, ownerName, parameters⟩, name, fields, attributes⟩).isCopied = true := by
      simpa [Ty.isCopied] using some
    refine givesInstance_constructor known (fun some type mem => ?_) fun some field mem => ?_
    · exact ih type mem (holds_of_mem_parameters (known_owner known) mem)
        (inner bodies ⟨isCopied_eq some, List.mem_append_left _ mem⟩)
    · exact ih_fields field mem (holds_of_mem_fields known mem)
        (inner bodies ⟨isCopied_eq some, List.mem_append_right _ (List.mem_map_of_mem mem)⟩)

/-- Instantiating a type through as many nested bodies as it enters aliases gives an instance. -/
theorem givesInstance_within {depth : Nat}
    (binds : heap.Binds bindings) (holds : heap.Holds type)
    (grounded : heap.store.Grounded type)
    (enough : (heap.store.enteredSlots type).card ≤ depth) :
    heap.GivesInstance bindings (Ty.instantiatedBody bindings depth) type := by
  induction depth generalizing type with
  | zero =>
    refine givesInstance binds holds fun reference path => ?_
    have known := (holds_aliasRef _).mp (holds.of_enters path)
    have mem := Store.mem_enteredSlots.mpr ⟨heap.made known, reference, rfl, path⟩
    exact absurd (Finset.card_pos.mpr ⟨_, mem⟩) (Nat.not_lt.mpr enough)
  | succ depth ih =>
    refine givesInstance binds holds fun reference path some wider growsTo => ?_
    have known := (holds_aliasRef _).mp (holds.of_enters path)
    refine makes_of_run_eq (Ty.run_instantiatedBody depth reference _) ?_
    rw [growsTo.body?_eq known]
    rcases body_eq : heap.store.body? reference with _ | body
    · exact makes_pure .none
    have enters : heap.store.Enters (.aliasRef reference) body :=
      ⟨by simpa [Ty.isCopied] using some, by simp [Store.parts, body_eq]⟩
    have fewer := card_enteredSlots_lt holds grounded path enters
    have gives := ih (holds_body known body_eq) (grounded.of_enters (path.tail enters)) (by omega)
    exact (gives wider growsTo).bind fun _ _ _ instance_ => makes_pure (.some instance_)

/-- Instantiating a type ends and gives an instance of it. -/
theorem makes_instantiate
    (binds : heap.Binds bindings) (holds : heap.Holds type)
    (grounded : heap.store.Grounded type) :
    heap.Makes (type.instantiate bindings) fun last result =>
      last.Instantiates bindings type result := by
  refine makes_of_run_eq (Ty.run_instantiate type _) ?_
  refine givesInstance_within binds holds grounded ?_ heap (.refl heap)
  exact (Store.card_enteredSlots_le type).trans (Nat.le_succ _)

end Instantiation

end Heap

end Reification
