import Reification.Proofs.Likeness

/-!
# Making references again

A computation which makes references in a heap extends it.  If a computation like it runs in any
heap which has grown from there, it ends as well, and its result equals the first one.  So an
instance of a type equals every later instance of an equal type for equal actual parameters.
-/

namespace Reification

namespace Making

variable {α β : Type} {heap : Heap}

/-- As far as a computation ends, it extends a heap, and whatever runs again later ends with a result
which is like the first one. -/
def Replays (heap : Heap) (first : Making α) (again : Heap → Making α → Prop)
    (alike : Heap → α → α → Prop) : Prop :=
  ∀ ⦃result store⦄, first.run heap.store = some (result, store) →
    ∃ later : Heap, heap.GrowsTo later ∧ later.store = store ∧ alike later result result ∧
      ∀ ⦃latest second⦄, later.GrowsTo latest → again latest second →
        ∃ other last, second.run latest.store = some (other, last.store) ∧
          latest.GrowsTo last ∧ alike last result other

section Rules

variable {first : Making α} {alike : Heap → α → α → Prop}

theorem replays_pure {result : α} (refl : alike heap result result) :
    Replays heap (pure result)
      (fun latest second => ∃ other, second = pure other ∧ alike latest result other) alike := by
  rintro _ _ ⟨⟩
  refine ⟨heap, .refl heap, rfl, refl, ?_⟩
  rintro latest _ - ⟨other, rfl, alike⟩
  exact ⟨other, latest, rfl, .refl latest, alike⟩

theorem replays_failure {again : Heap → Making α → Prop} : Replays heap failure again alike := by
  rintro _ _ ⟨⟩

/-- What runs again runs again step by step. -/
theorem Replays.bind {next : α → Making β} {again : Heap → Making α → Prop}
    {again_next : α → Heap → Making β → Prop} {alike' : Heap → β → β → Prop}
    (head : Replays heap first again alike)
    (tail : ∀ result later, heap.GrowsTo later → alike later result result →
      Replays later (next result) (again_next result) alike') :
    Replays heap (first >>= next) (fun latest second => ∃ start rest, second = start >>= rest ∧
      again latest start ∧ ∀ result other last, latest.GrowsTo last → alike last result other →
        again_next result last (rest other)) alike' := by
  intro result store run_eq
  rw [StateT.run_bind] at run_eq
  obtain ⟨⟨middle, _⟩, first_eq, next_eq⟩ := Option.bind_eq_some_iff.mp run_eq
  obtain ⟨later, growsTo, rfl, alike_middle, replays⟩ := head first_eq
  obtain ⟨later', growsTo', rfl, alike_result, replays'⟩ :=
    tail middle later growsTo alike_middle next_eq
  refine ⟨later', growsTo.trans growsTo', rfl, alike_result, ?_⟩
  rintro latest _ le ⟨start, rest, rfl, again_start, again_rest⟩
  obtain ⟨other, last, start_eq, last_growsTo, alike_other⟩ :=
    replays (growsTo'.trans le) again_start
  obtain ⟨other', last', rest_eq, last'_growsTo, alike_other'⟩ :=
    replays' (le.trans last_growsTo) (again_rest middle other last last_growsTo alike_other)
  exact ⟨other', last', by simp [StateT.run_bind, start_eq, rest_eq],
    last_growsTo.trans last'_growsTo, alike_other'⟩

/-- Both computations may be replaced by ones which run alike. -/
theorem Replays.of_run_eq {first' : Making α} {again again' : Heap → Making α → Prop}
    (replays : Replays heap first' again' alike)
    (first_eq : first.run heap.store = first'.run heap.store)
    (agrees : ∀ latest second, heap.GrowsTo latest → again latest second →
      ∃ second', again' latest second' ∧ second.run latest.store = second'.run latest.store) :
    Replays heap first again alike := by
  intro result store run_eq
  rw [first_eq] at run_eq
  obtain ⟨later, growsTo, store_eq, alike_result, replays⟩ := replays run_eq
  refine ⟨later, growsTo, store_eq, alike_result, fun latest second le again_second => ?_⟩
  obtain ⟨second', again_second, second_eq⟩ :=
    agrees latest second (growsTo.trans le) again_second
  rw [second_eq]
  exact replays le again_second

theorem Replays.imp {again again' : Heap → Making α → Prop}
    (replays : Replays heap first again' alike)
    (le : ∀ latest second, heap.GrowsTo latest → again latest second → again' latest second) :
    Replays heap first again alike :=
  replays.of_run_eq rfl fun latest second growsTo again_second =>
    ⟨second, le latest second growsTo again_second, rfl⟩

/-- What runs again may change the result. -/
theorem Replays.map {again : Heap → Making α → Prop} {alike' : Heap → β → β → Prop}
    (head : Replays heap first again alike) {change : α → β}
    (refl : ∀ result later, heap.GrowsTo later → alike later result result →
      alike' later (change result) (change result)) :
    Replays heap (first >>= fun result => pure (change result))
      (fun latest second => ∃ (start : Making α) (change' : α → β),
        second = (start >>= fun result => pure (change' result)) ∧ again latest start ∧
          ∀ result other last, latest.GrowsTo last → alike last result other →
            alike' last (change result) (change' other)) alike' := by
  refine (head.bind fun result later le alike => replays_pure (refl result later le alike)).imp ?_
  rintro latest _ - ⟨start, change', rfl, again_start, alike_le⟩
  exact ⟨start, _, rfl, again_start, fun result other last growsTo alike =>
    ⟨change' other, rfl, alike_le result other last growsTo alike⟩⟩

end Rules

section References

variable {parameters : List Ty} (hold : ∀ type ∈ parameters, heap.Holds type) (name : String)

include hold

theorem replays_newData : Replays heap (newData name parameters)
    (fun latest second => ∃ others, second = newData name others ∧
      latest.AlikeAll parameters others)
    fun last reference other => reference.name = name ∧
      last.Alike (.dataRef reference) (.dataRef other) := by
  rintro _ _ ⟨⟩
  obtain ⟨later, growsTo, store_eq, known⟩ := heap.exists_makeData hold name
  refine ⟨later, growsTo, store_eq, ⟨rfl, .refl ((Heap.holds_dataRef _).mpr known)⟩, ?_⟩
  rintro latest _ le ⟨others, rfl, alike⟩
  obtain ⟨last, last_growsTo, last_eq, other_known⟩ :=
    latest.exists_makeData (Heap.alikeAll_iff.mp alike).2.1 name
  exact ⟨_, last, congrArg (fun store => some (_, store)) last_eq.symm, last_growsTo, rfl,
    .dataRef (last_growsTo.known (le.known known)) other_known rfl (alike.mono last_growsTo)⟩

theorem replays_newAlias {body : Option Ty}
    (body_holds : ∀ known, body = some known → heap.Holds known) :
    Replays heap (newAlias name parameters body)
      (fun latest second => ∃ others other, second = newAlias name others other ∧
        latest.AlikeAll parameters others ∧ latest.AlikeOption body other)
      fun last reference other => last.Alike (.aliasRef reference) (.aliasRef other) := by
  rintro _ _ ⟨⟩
  obtain ⟨later, growsTo, store_eq, known⟩ := heap.exists_makeAlias hold name body body_holds
  refine ⟨later, growsTo, store_eq, .refl ((Heap.holds_aliasRef _).mpr known), ?_⟩
  rintro latest _ le ⟨others, other, rfl, alike, bodies⟩
  obtain ⟨last, last_growsTo, last_eq, other_known⟩ :=
    latest.exists_makeAlias (Heap.alikeAll_iff.mp alike).2.1 name other bodies.right_holds
  have body_eq : last.store.body? (heap.store.makeAlias name parameters body).1 = body := by
    rw [(le.trans last_growsTo).body?_eq known, store_eq, Store.body?_made]
  have other_eq : last.store.body? (latest.store.makeAlias name others other).1 = other := by
    rw [last_eq, Store.body?_made]
  exact ⟨_, last, congrArg (fun store => some (_, store)) last_eq.symm, last_growsTo, .aliasRef
    (last_growsTo.known (le.known known)) other_known rfl (alike.mono last_growsTo)
    ((body_eq.symm ▸ other_eq.symm ▸ bodies.mono last_growsTo :))⟩

omit hold

theorem replays_newConstructor {owner : DataRef Ty} {fields : List (Field Ty)}
    (owner_known : heap.Known (.dataRef owner)) (hold : ∀ field ∈ fields, heap.Holds field.type)
    (attributes : OrderedSet Attribute) :
    Replays heap (newConstructor owner name fields attributes)
      (fun latest second => ∃ owner' fields' attributes',
        second = newConstructor owner' name fields' attributes' ∧
          latest.Alike (.dataRef owner) (.dataRef owner') ∧ latest.AlikeFields fields fields')
      fun last reference other => last.Alike (.constructor reference) (.constructor other) := by
  rintro _ _ ⟨⟩
  obtain ⟨later, growsTo, store_eq, known⟩ :=
    heap.exists_makeConstructor name owner_known hold attributes
  refine ⟨later, growsTo, store_eq, .refl ((Heap.holds_constructor _).mpr known), ?_⟩
  rintro latest _ le ⟨owner', fields', attributes', rfl, owners, alike⟩
  obtain ⟨last, last_growsTo, last_eq, other_known⟩ := latest.exists_makeConstructor name
    ((Heap.holds_dataRef _).mp owners.right_holds) (Heap.alikeFields_iff.mp alike).2.1 attributes'
  exact ⟨_, last, congrArg (fun store => some (_, store)) last_eq.symm, last_growsTo,
    .constructor (last_growsTo.known (le.known known)) other_known rfl (owners.mono last_growsTo)
      (alike.mono last_growsTo)⟩

end References

end Making

namespace Heap

variable {heap wider : Heap} {bindings others : Bindings}

/-- Whether the same names are bound to equal types. -/
def AlikeBindings (heap : Heap) (bindings others : Bindings) : Prop :=
  ∀ name, heap.AlikeOption (bindings.get? name) (others.get? name)

theorem AlikeBindings.mono (alike : heap.AlikeBindings bindings others)
    (growsTo : heap.GrowsTo wider) : wider.AlikeBindings bindings others :=
  fun name => (alike name).mono growsTo

/-- Equal formal parameters are bound to equal actual ones. -/
theorem alikeBindings_ofParameters {formals actuals formals' actuals' : List Ty}
    (alike_formals : heap.AlikeAll formals formals') (alike_actuals : heap.AlikeAll actuals actuals') :
    heap.AlikeBindings (.ofParameters formals actuals) (.ofParameters formals' actuals') := by
  have bind {formal formal' actual actual' : Ty} {bindings others : Bindings}
      (alike : heap.AlikeBindings bindings others) (formals : heap.Alike formal formal')
      (actuals : heap.Alike actual actual') :
      heap.AlikeBindings (bindings.bind (formal, actual)) (others.bind (formal', actual')) := by
    cases formal with
    | parameter formal_name bound =>
      obtain ⟨_, rfl, -⟩ := alike_parameter_iff.mp formals
      intro name
      simp only [Bindings.bind, Table.get?_insert]
      split
      · exact .some actuals
      · exact alike name
    | _ =>
      cases formal' with
      | parameter => cases Store.same_symm formals.equal
      | _ => exact alike
  have step {bindings others : Bindings} (alike : heap.AlikeBindings bindings others) :
      heap.AlikeBindings ((formals.zip actuals).foldl Bindings.bind bindings)
        ((formals'.zip actuals').foldl Bindings.bind others) := by
    induction alike_formals generalizing actuals actuals' bindings others with
    | nil => exact alike
    | cons head _ ih =>
      cases alike_actuals with
      | nil => exact alike
      | cons head' tail' => exact ih tail' (bind alike head head')
  exact step fun _ => .none

end Heap

namespace Ty

variable {bindings : Bindings} {heap : Heap} {depth : Nat}

open Making (Replays replays_pure replays_failure)

/-- Whether a computation gives the instance of something which is like a given one, for equal
actual parameters and through no fewer nested bodies of aliases. -/
def InstantiatesLike {α β : Type} (alike : Heap → α → α → Prop)
    (instantiate : Bindings → (AliasRef Ty → Making (Option Ty)) → α → Making β)
    (bindings : Bindings) (depth : Nat) (first : α) (latest : Heap) (second : Making β) : Prop :=
  ∃ others deeper other, second = instantiate others (instantiatedBody others deeper) other ∧
    alike latest first other ∧ latest.AlikeBindings bindings others ∧ depth ≤ deeper

/-- Whether an instance of a type equals every later instance of an equal type. -/
def Replayable (bindings : Bindings) (depth : Nat) (heap : Heap) (type : Ty) : Prop :=
  Replays heap (type.instantiateWith bindings (instantiatedBody bindings depth))
    (InstantiatesLike Heap.Alike instantiateWith bindings depth type) Heap.Alike

section Equations

variable {body : AliasRef Ty → Making (Option Ty)}

theorem instantiateWith_dataRef (reference : DataRef Ty) :
    instantiateWith bindings body (.dataRef reference) =
      if reference.parameters.isEmpty then pure (.dataRef reference)
      else do
        let actuals ← instantiateAllWith bindings body reference.parameters
        return .dataRef (← Making.newData reference.name actuals) := by
  rw [instantiateWith]

theorem instantiateWith_aliasRef (reference : AliasRef Ty) :
    instantiateWith bindings body (.aliasRef reference) =
      if reference.parameters.isEmpty then pure (.aliasRef reference)
      else do
        let actuals ← instantiateAllWith bindings body reference.parameters
        return .aliasRef (← Making.newAlias reference.name actuals (← body reference)) := by
  rw [instantiateWith]

theorem instantiateWith_constructor (reference : Constructor Ty) :
    instantiateWith bindings body (.constructor reference) =
      if reference.owner.parameters.isEmpty then pure (.constructor reference)
      else do
        let actuals ← instantiateAllWith bindings body reference.owner.parameters
        let owner ← Making.newData reference.owner.name actuals
        let fields ← instantiateFieldsWith bindings body reference.fields
        return .constructor
          (← Making.newConstructor owner reference.name fields reference.attributes) := by
  rw [instantiateWith]

end Equations

theorem instantiateAllWith_replays {types : List Ty}
    (replayable : ∀ type ∈ types, ∀ later, heap.GrowsTo later → Replayable bindings depth later type) :
    Replays heap (instantiateAllWith bindings (instantiatedBody bindings depth) types)
      (InstantiatesLike Heap.AlikeAll instantiateAllWith bindings depth types) Heap.AlikeAll := by
  induction types generalizing heap with
  | nil =>
    refine (replays_pure .nil).imp ?_
    rintro latest _ - ⟨_, _, _, rfl, ⟨⟩, -⟩
    exact ⟨[], rfl, .nil⟩
  | cons type types ih =>
    obtain ⟨head, tail⟩ := List.forall_mem_cons.mp replayable
    rw [instantiateAllWith]
    refine ((head heap (.refl heap)).bind fun result later growsTo alike =>
      (ih fun type mem wider le => tail type mem wider (growsTo.trans le)).bind
        fun _ _ le rest => replays_pure (.cons (alike.mono le) rest)).imp ?_
    rintro latest _ - ⟨others, deeper, _, rfl, alike, binds, le⟩
    cases alike with
    | @cons _ other _ rest alike alike_rest =>
      rw [instantiateAllWith]
      refine ⟨_, _, rfl, ⟨others, deeper, other, rfl, alike, binds, le⟩,
        fun _ _ last growsTo alike => ?_⟩
      have alike_rest : last.AlikeAll types rest := Heap.AlikeAll.mono alike_rest growsTo
      exact ⟨_, _, rfl, ⟨others, deeper, rest, rfl, alike_rest, binds.mono growsTo, le⟩,
        fun _ _ _ growsTo rest => ⟨_, rfl, .cons (alike.mono growsTo) rest⟩⟩

theorem instantiateFieldsWith_replays {fields : List (Field Ty)}
    (replayable : ∀ field ∈ fields, ∀ later, heap.GrowsTo later →
      Replayable bindings depth later field.type) :
    Replays heap (instantiateFieldsWith bindings (instantiatedBody bindings depth) fields)
      (InstantiatesLike Heap.AlikeFields instantiateFieldsWith bindings depth fields)
      Heap.AlikeFields := by
  induction fields generalizing heap with
  | nil =>
    refine (replays_pure .nil).imp ?_
    rintro latest _ - ⟨_, _, _, rfl, ⟨⟩, -⟩
    exact ⟨[], rfl, .nil⟩
  | cons field fields ih =>
    obtain ⟨head, tail⟩ := List.forall_mem_cons.mp replayable
    obtain ⟨label, type⟩ := field
    rw [instantiateFieldsWith]
    refine ((head heap (.refl heap)).bind fun result later growsTo alike =>
      (ih fun field mem wider le => tail field mem wider (growsTo.trans le)).bind
        fun _ _ le rest => replays_pure (.cons ⟨rfl, alike.mono le⟩ rest)).imp ?_
    rintro latest _ - ⟨others, deeper, _, rfl, alike, binds, le⟩
    cases alike with
    | @cons _ other _ rest alike alike_rest =>
      obtain ⟨_, other⟩ := other
      obtain ⟨rfl, alike⟩ := alike
      rw [instantiateFieldsWith]
      refine ⟨_, _, rfl, ⟨others, deeper, other, rfl, alike, binds, le⟩,
        fun _ _ last growsTo alike => ?_⟩
      have alike_rest : last.AlikeFields fields rest := Heap.AlikeFields.mono alike_rest growsTo
      exact ⟨_, _, rfl, ⟨others, deeper, rest, rfl, alike_rest, binds.mono growsTo, le⟩,
        fun _ _ _ growsTo rest => ⟨_, rfl, .cons ⟨rfl, alike.mono growsTo⟩ rest⟩⟩

section References

theorem replayable_dataRef {reference : DataRef Ty} (known : heap.Known (.dataRef reference))
    (parameters : Replays heap
      (instantiateAllWith bindings (instantiatedBody bindings depth) reference.parameters)
      (InstantiatesLike Heap.AlikeAll instantiateAllWith bindings depth reference.parameters)
      Heap.AlikeAll) : Replayable bindings depth heap (.dataRef reference) := by
  obtain ⟨object, name, _⟩ := reference
  rw [Replayable, instantiateWith_dataRef]
  split
  · next none =>
    refine (replays_pure (.refl ((Heap.holds_dataRef _).mpr known))).imp ?_
    rintro latest _ - ⟨_, _, _, rfl, alike, -⟩
    obtain ⟨right, rfl, -, alike_parameters⟩ := alike.dataRef_inv
    exact ⟨.dataRef right,
      by rw [instantiateWith_dataRef, if_pos (alike_parameters.isEmpty_eq ▸ none)], alike⟩
  · next some =>
    refine (parameters.bind fun actuals middle le alike =>
      (Making.replays_newData (Heap.alikeAll_iff.mp alike).1 name).map
        fun _ _ _ alike => alike.2).imp ?_
    rintro latest _ - ⟨others, deeper, _, rfl, alike, binds, le⟩
    obtain ⟨right, rfl, name_eq, alike_parameters⟩ := alike.dataRef_inv
    obtain ⟨other, otherName, otherParameters⟩ := right
    obtain rfl : name = otherName := name_eq
    rw [instantiateWith_dataRef, if_neg (alike_parameters.isEmpty_eq ▸ some)]
    refine ⟨_, _, rfl, ⟨others, deeper, _, rfl, alike_parameters, binds, le⟩,
      fun _ actuals' last growsTo alike => ?_⟩
    exact ⟨_, _, rfl, ⟨actuals', rfl, alike⟩, fun _ _ _ _ alike => alike.2⟩

theorem replayable_aliasRef {reference : AliasRef Ty} (known : heap.Known (.aliasRef reference))
    (parameters : Replays heap
      (instantiateAllWith bindings (instantiatedBody bindings depth) reference.parameters)
      (InstantiatesLike Heap.AlikeAll instantiateAllWith bindings depth reference.parameters)
      Heap.AlikeAll)
    (body : ∀ later, heap.GrowsTo later → Replays later (instantiatedBody bindings depth reference)
      (InstantiatesLike (fun heap left right => heap.Alike (.aliasRef left) (.aliasRef right))
        (fun _ body => body) bindings depth reference) Heap.AlikeOption) :
    Replayable bindings depth heap (.aliasRef reference) := by
  obtain ⟨object, name, _⟩ := reference
  rw [Replayable, instantiateWith_aliasRef]
  split
  · next none =>
    refine (replays_pure (.refl ((Heap.holds_aliasRef _).mpr known))).imp ?_
    rintro latest _ - ⟨_, _, _, rfl, alike, -⟩
    obtain ⟨right, rfl, -, alike_parameters, -⟩ := alike.aliasRef_inv
    exact ⟨.aliasRef right,
      by rw [instantiateWith_aliasRef, if_pos (alike_parameters.isEmpty_eq ▸ none)], alike⟩
  · next some =>
    refine (parameters.bind fun actuals middle le alike => (body middle le).bind
      fun body wider le' alike_body => (Making.replays_newAlias
        (Heap.alikeAll_iff.mp (alike.mono le')).1 name alike_body.right_holds).map
          fun _ _ _ alike => alike).imp ?_
    rintro latest _ - ⟨others, deeper, _, rfl, alike, binds, le⟩
    obtain ⟨right, rfl, name_eq, alike_parameters, -⟩ := alike.aliasRef_inv
    obtain ⟨other, otherName, otherParameters⟩ := right
    obtain rfl : name = otherName := name_eq
    rw [instantiateWith_aliasRef, if_neg (alike_parameters.isEmpty_eq ▸ some)]
    refine ⟨_, _, rfl, ⟨others, deeper, _, rfl, alike_parameters, binds, le⟩,
      fun _ actuals' _ growsTo alike_actuals => ?_⟩
    refine ⟨_, _, rfl, ⟨others, deeper, _, rfl, alike.mono growsTo, binds.mono growsTo, le⟩,
      fun _ body' _ growsTo alike_body => ?_⟩
    exact ⟨_, _, rfl, ⟨actuals', body', rfl, alike_actuals.mono growsTo, alike_body⟩,
      fun _ _ _ _ alike => alike⟩

theorem replayable_constructor {reference : Constructor Ty}
    (known : heap.Known (.constructor reference))
    (parameters : Replays heap
      (instantiateAllWith bindings (instantiatedBody bindings depth) reference.owner.parameters)
      (InstantiatesLike Heap.AlikeAll instantiateAllWith bindings depth reference.owner.parameters)
      Heap.AlikeAll)
    (fields : ∀ later, heap.GrowsTo later → Replays later
      (instantiateFieldsWith bindings (instantiatedBody bindings depth) reference.fields)
      (InstantiatesLike Heap.AlikeFields instantiateFieldsWith bindings depth reference.fields)
      Heap.AlikeFields) : Replayable bindings depth heap (.constructor reference) := by
  obtain ⟨object, ⟨data, ownerName, _⟩, name, _, attributes⟩ := reference
  rw [Replayable, instantiateWith_constructor]
  split
  · next none =>
    refine (replays_pure (.refl ((Heap.holds_constructor _).mpr known))).imp ?_
    rintro latest _ - ⟨_, _, _, rfl, alike, -⟩
    obtain ⟨right, rfl, -, owners, -⟩ := alike.constructor_inv
    exact ⟨.constructor right,
      by rw [instantiateWith_constructor, if_pos (owners.parameters.isEmpty_eq ▸ none)], alike⟩
  · next some =>
    refine (parameters.bind fun actuals middle le alike => (Making.replays_newData
      (Heap.alikeAll_iff.mp alike).1 ownerName).bind fun made wider le' owners =>
        (fields wider (le.trans le')).bind fun others widest le'' alike_fields =>
          (Making.replays_newConstructor name
            ((Heap.holds_dataRef _).mp (owners.2.left_holds.mono le''))
            (Heap.alikeFields_iff.mp alike_fields).1 attributes).map fun _ _ _ alike => alike).imp ?_
    rintro latest _ - ⟨others, deeper, _, rfl, alike, binds, le⟩
    obtain ⟨right, rfl, name_eq, owners, alike_fields⟩ := alike.constructor_inv
    obtain ⟨_, ⟨_, otherOwner, otherParameters⟩, otherName, otherFields, otherAttributes⟩ := right
    obtain rfl : name = otherName := name_eq
    obtain ⟨_, ⟨⟩, owner_eq, alike_parameters⟩ := owners.dataRef_inv
    obtain rfl : ownerName = otherOwner := owner_eq
    rw [instantiateWith_constructor, if_neg (alike_parameters.isEmpty_eq ▸ some)]
    refine ⟨_, _, rfl, ⟨others, deeper, _, rfl, alike_parameters, binds, le⟩,
      fun _ actuals' _ growsTo alike_actuals => ?_⟩
    refine ⟨_, _, rfl, ⟨actuals', rfl, alike_actuals⟩, fun _ owner' _ growsTo' owners => ?_⟩
    refine ⟨_, _, rfl, ⟨others, deeper, otherFields, rfl,
      alike_fields.mono (growsTo.trans growsTo'), binds.mono (growsTo.trans growsTo'), le⟩,
      fun _ fields' _ growsTo alike_fields => ?_⟩
    exact ⟨_, _, rfl, ⟨owner', fields', otherAttributes, rfl, owners.2.mono growsTo, alike_fields⟩,
      fun _ _ _ _ alike => alike⟩

end References

/-- An instance of a type equals every later instance of an equal type, if the same is known of the
bodies of aliases. -/
theorem replayable_of_bodies (binds : heap.AlikeBindings bindings bindings)
    (bodies : ∀ later, heap.GrowsTo later → ∀ reference, later.Known (.aliasRef reference) →
      Replays later (instantiatedBody bindings depth reference)
        (InstantiatesLike (fun heap left right => heap.Alike (.aliasRef left) (.aliasRef right))
          (fun _ body => body) bindings depth reference) Heap.AlikeOption)
    {type : Ty} {later : Heap} (growsTo : heap.GrowsTo later) (holds : later.Holds type) :
    Replayable bindings depth later type := by
  have all {types : List Ty} {later : Heap} (growsTo : heap.GrowsTo later)
      (hold : ∀ type ∈ types, later.Holds type)
      (ih : ∀ type ∈ types, ∀ {later : Heap}, heap.GrowsTo later → later.Holds type →
        Replayable bindings depth later type) :
      Replays later (instantiateAllWith bindings (instantiatedBody bindings depth) types)
        (InstantiatesLike Heap.AlikeAll instantiateAllWith bindings depth types) Heap.AlikeAll :=
    instantiateAllWith_replays fun type mem wider le =>
      ih type mem (growsTo.trans le) ((hold type mem).mono le)
  have fields_ {fields : List (Field Ty)} {later : Heap} (growsTo : heap.GrowsTo later)
      (hold : ∀ field ∈ fields, later.Holds field.type)
      (ih : ∀ field ∈ fields, ∀ {later : Heap}, heap.GrowsTo later → later.Holds field.type →
        Replayable bindings depth later field.type) :
      Replays later (instantiateFieldsWith bindings (instantiatedBody bindings depth) fields)
        (InstantiatesLike Heap.AlikeFields instantiateFieldsWith bindings depth fields)
        Heap.AlikeFields :=
    instantiateFieldsWith_replays fun field mem wider le =>
      ih field mem (growsTo.trans le) ((hold field mem).mono le)
  induction type using Ty.induction generalizing later with
  | prim primitive =>
    refine (replays_pure (.refl holds)).imp ?_
    rintro latest _ - ⟨_, _, _, rfl, alike, -⟩
    obtain rfl := Heap.alike_prim_iff.mp alike
    exact ⟨_, rfl, alike⟩
  | sort name =>
    refine (replays_pure (.refl holds)).imp ?_
    rintro latest _ - ⟨_, _, _, rfl, alike, -⟩
    obtain rfl := Heap.alike_sort_iff.mp alike
    exact ⟨_, rfl, alike⟩
  | parameter name bound =>
    have alike_getD {latest : Heap} {left right : Ty} {given other : Option Ty}
        (alike : latest.Alike left right) (given_alike : latest.AlikeOption given other) :
        latest.Alike (given.getD left) (other.getD right) := by
      cases given_alike with
      | none => exact alike
      | some given_alike => exact given_alike
    refine (replays_pure (alike_getD (.refl holds) ((binds.mono growsTo) name))).imp ?_
    rintro latest _ - ⟨others, deeper, _, rfl, alike, binds, -⟩
    obtain ⟨other, rfl, -⟩ := Heap.alike_parameter_iff.mp alike
    exact ⟨_, rfl, alike_getD alike (binds name)⟩
  | list element ih =>
    refine ((ih growsTo ((Heap.holds_list _).mp holds)).map fun _ _ _ alike =>
      Heap.alike_list_iff.mpr ⟨_, rfl, alike⟩).imp ?_
    rintro latest _ - ⟨others, deeper, _, rfl, alike, binds, le⟩
    obtain ⟨other, rfl, elements⟩ := Heap.alike_list_iff.mp alike
    exact ⟨_, _, rfl, ⟨others, deeper, other, rfl, elements, binds, le⟩,
      fun _ _ _ _ alike => Heap.alike_list_iff.mpr ⟨_, rfl, alike⟩⟩
  | set element ih =>
    refine ((ih growsTo ((Heap.holds_set _).mp holds)).map fun _ _ _ alike =>
      Heap.alike_set_iff.mpr ⟨_, rfl, alike⟩).imp ?_
    rintro latest _ - ⟨others, deeper, _, rfl, alike, binds, le⟩
    obtain ⟨other, rfl, elements⟩ := Heap.alike_set_iff.mp alike
    exact ⟨_, _, rfl, ⟨others, deeper, other, rfl, elements, binds, le⟩,
      fun _ _ _ _ alike => Heap.alike_set_iff.mpr ⟨_, rfl, alike⟩⟩
  | reified inner ih =>
    refine ((ih growsTo ((Heap.holds_reified _).mp holds)).map fun _ _ _ alike =>
      Heap.alike_reified_iff.mpr ⟨_, rfl, alike⟩).imp ?_
    rintro latest _ - ⟨others, deeper, _, rfl, alike, binds, le⟩
    obtain ⟨other, rfl, inners⟩ := Heap.alike_reified_iff.mp alike
    exact ⟨_, _, rfl, ⟨others, deeper, other, rfl, inners, binds, le⟩,
      fun _ _ _ _ alike => Heap.alike_reified_iff.mpr ⟨_, rfl, alike⟩⟩
  | tuple fields ih =>
    refine ((fields_ growsTo ((Heap.holds_tuple _).mp holds) ih).map fun _ _ _ alike =>
      Heap.alike_tuple_iff.mpr ⟨_, rfl, alike⟩).imp ?_
    rintro latest _ - ⟨others, deeper, _, rfl, alike, binds, le⟩
    obtain ⟨other, rfl, alike_fields⟩ := Heap.alike_tuple_iff.mp alike
    exact ⟨_, _, rfl, ⟨others, deeper, other, rfl, alike_fields, binds, le⟩,
      fun _ _ _ _ alike => Heap.alike_tuple_iff.mpr ⟨_, rfl, alike⟩⟩
  | map key value ih_key ih_value =>
    obtain ⟨key_holds, value_holds⟩ := (Heap.holds_map _ _).mp holds
    refine ((ih_key growsTo key_holds).bind fun first middle le alike_key =>
      (ih_value (growsTo.trans le) (value_holds.mono le)).map
        fun _ _ le alike => Heap.alike_map_iff.mpr ⟨_, _, rfl, alike_key.mono le, alike⟩).imp ?_
    rintro latest _ - ⟨others, deeper, _, rfl, alike, binds, le⟩
    obtain ⟨otherKey, otherValue, rfl, keys, values⟩ := Heap.alike_map_iff.mp alike
    refine ⟨_, _, rfl, ⟨others, deeper, otherKey, rfl, keys, binds, le⟩,
      fun _ _ last growsTo alike_key => ?_⟩
    exact ⟨_, _, rfl,
      ⟨others, deeper, otherValue, rfl, values.mono growsTo, binds.mono growsTo, le⟩,
      fun _ _ _ le alike => Heap.alike_map_iff.mpr ⟨_, _, rfl, alike_key.mono le, alike⟩⟩
  | func result arguments ih ih_arguments =>
    obtain ⟨result_holds, arguments_hold⟩ := (Heap.holds_func _ _).mp holds
    refine ((ih growsTo result_holds).bind fun first middle le alike_result =>
      (fields_ (growsTo.trans le) (fun field mem => (arguments_hold field mem).mono le)
        ih_arguments).map fun _ _ le alike =>
          Heap.alike_func_iff.mpr ⟨_, _, rfl, alike_result.mono le, alike⟩).imp ?_
    rintro latest _ - ⟨others, deeper, _, rfl, alike, binds, le⟩
    obtain ⟨otherResult, otherArguments, rfl, results, alike_arguments⟩ :=
      Heap.alike_func_iff.mp alike
    refine ⟨_, _, rfl, ⟨others, deeper, otherResult, rfl, results, binds, le⟩,
      fun _ _ last growsTo alike_result => ?_⟩
    exact ⟨_, _, rfl, ⟨others, deeper, otherArguments, rfl, alike_arguments.mono growsTo,
      binds.mono growsTo, le⟩,
      fun _ _ _ le alike => Heap.alike_func_iff.mpr ⟨_, _, rfl, alike_result.mono le, alike⟩⟩
  | dataRef object name parameters ih =>
    have known := (Heap.holds_dataRef _).mp holds
    exact replayable_dataRef known (all growsTo (fun _ => Heap.holds_of_mem_parameters known) ih)
  | aliasRef object name parameters ih =>
    have known := (Heap.holds_aliasRef _).mp holds
    exact replayable_aliasRef known
      (all growsTo (fun _ => Heap.holds_of_mem_parameters_alias known) ih)
      fun middle le => bodies middle (growsTo.trans le) _ (le.known known)
  | constructor object owner ownerName parameters name fields attributes ih ih_fields =>
    have known := (Heap.holds_constructor _).mp holds
    exact replayable_constructor known
      (all growsTo (fun _ => Heap.holds_of_mem_parameters (Heap.known_owner known)) ih)
      fun middle le => fields_ (growsTo.trans le)
        (fun field mem => (Heap.holds_of_mem_fields known mem).mono le) ih_fields

/-- The instance of a body as far as it is known. -/
def instantiateBody (bindings : Bindings) (depth : Nat) : Option Ty → Making (Option Ty)
  | some body => do
    let result ← body.instantiateWith bindings (instantiatedBody bindings depth)
    return some result
  | none => pure none

theorem run_instantiatedBody (depth : Nat) (reference : AliasRef Ty) (store : Store) :
    (instantiatedBody bindings (depth + 1) reference).run store =
      (instantiateBody bindings depth (store.body? reference)).run store := by
  rw [instantiatedBody, StateT.run_bind]
  change StateT.run (match store.body? reference with
    | some body => some <$> instantiateWithin bindings depth body
    | none => pure none) store = _
  split
  · next body body_eq => simp only [body_eq, instantiateBody, instantiateWithin_eq, map_eq_pure_bind]
  · next body_eq => simp only [body_eq, instantiateBody]

theorem instantiateBody_replays
    (replayable : ∀ type, heap.Holds type → Replayable bindings depth heap type) {body : Option Ty}
    (holds : ∀ known, body = some known → heap.Holds known) :
    Replays heap (instantiateBody bindings depth body)
      (fun latest second => ∃ others deeper other, second = instantiateBody others deeper other ∧
        latest.AlikeOption body other ∧ latest.AlikeBindings bindings others ∧ depth ≤ deeper)
      Heap.AlikeOption := by
  cases body with
  | none =>
    refine (replays_pure .none).imp ?_
    rintro latest _ - ⟨_, _, _, rfl, ⟨⟩, -⟩
    exact ⟨none, rfl, .none⟩
  | some body =>
    refine ((replayable body (holds body rfl)).map fun _ _ _ alike => .some alike).imp ?_
    rintro latest _ - ⟨others, deeper, _, rfl, alike, binds, le⟩
    cases alike with
    | some alike =>
      exact ⟨_, _, rfl, ⟨others, deeper, _, rfl, alike, binds, le⟩, fun _ _ _ _ alike => .some alike⟩

/-- An instance of a type equals every later instance of an equal type. -/
theorem replayable (depth : Nat) (binds : heap.AlikeBindings bindings bindings) {type : Ty}
    (holds : heap.Holds type) : Replayable bindings depth heap type := by
  induction depth generalizing heap type with
  | zero => exact replayable_of_bodies binds (fun _ _ _ _ => replays_failure) (.refl heap) holds
  | succ depth ih =>
    refine replayable_of_bodies binds (fun later growsTo reference known => ?_) (.refl heap) holds
    refine (instantiateBody_replays (fun _ => ih (binds.mono growsTo))
      fun _ => Heap.holds_body known).of_run_eq (run_instantiatedBody ..) ?_
    rintro latest _ le ⟨others, deeper, other, rfl, alike, binds, depth_le⟩
    obtain ⟨deeper, rfl⟩ := Nat.exists_eq_add_of_le' depth_le
    obtain ⟨_, ⟨⟩, -, -, bodies⟩ := alike.aliasRef_inv
    rw [le.body?_eq known] at bodies
    exact ⟨_, ⟨others, _, _, rfl, bodies, binds, Nat.le_add_left depth deeper⟩,
      run_instantiatedBody ..⟩

theorem run_instantiate (type : Ty) (store : Store) :
    (type.instantiate bindings).run store =
      (type.instantiateWith bindings (instantiatedBody bindings (store.slots.size + 1))).run store := by
  rw [← instantiateWithin_eq]
  rfl

/-- Instantiating a type makes an instance which equals every later one of an equal type. -/
theorem instantiate_replays (binds : heap.AlikeBindings bindings bindings) {type : Ty}
    (holds : heap.Holds type) : Replays heap (type.instantiate bindings)
      (fun latest second => ∃ other others, second = other.instantiate others ∧
        latest.Alike type other ∧ latest.AlikeBindings bindings others) Heap.Alike := by
  refine (replayable _ binds holds).of_run_eq (run_instantiate ..) ?_
  rintro latest _ growsTo ⟨other, others, rfl, alike, binds⟩
  exact ⟨_, ⟨others, _, other, rfl, alike, binds, Nat.succ_le_succ growsTo.grows.size_le⟩,
    run_instantiate ..⟩

end Ty

end Reification
