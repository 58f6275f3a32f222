import Reification.Proofs.Continuation
import Reification.Proofs.Meaning
import Reification.Proofs.Replay

/-!
# Reconstructing again

A reconstruction which has ended is retraced: one like it, which starts later, ends with an equal
type and makes references, but it declares nothing.  The rules of this module reduce this to the
steps of a reconstruction; the expansions of names are assumed to be retraced.
-/

namespace Reification

open Reconstruct (Resolver)

namespace Building

variable {α β : Type} {resolve : Resolver} {heap : Heap} {world : World}

/-- As far as a computation ends, a heap grows to one which has everything that is declared then, and
whatever runs again later ends with a result which is like the first one and declares nothing. -/
def Retraces (resolve : Resolver) (heap : Heap) (world : World) (first : Building α)
    (again : Heap → Building α → Prop) (alike : Heap → α → α → Prop) : Prop :=
  ∀ ⦃result after⦄, first.run.run world = (.ok result, after) →
    ∃ later : Heap, heap.GrowsTo later ∧ later.Carries after ∧ world.Continues resolve after ∧
      alike later result result ∧
      ∀ ⦃latest next second⦄, later.GrowsTo latest → latest.Carries next →
        after.Continues resolve next → again latest second →
          ∃ other last, second.run.run next = (.ok other, { next with store := last.store }) ∧
            latest.GrowsTo last ∧ alike last result other

section Rules

variable {first : Building α} {again : Heap → Building α → Prop} {alike : Heap → α → α → Prop}

theorem retraces_pure (carries : heap.Carries world) {result : α} (refl : alike heap result result) :
    Retraces resolve heap world (pure result)
      (fun latest second => ∃ other, second = pure other ∧ alike latest result other) alike := by
  rintro _ _ ⟨⟩
  refine ⟨heap, .refl heap, carries, .refl world, refl, ?_⟩
  rintro latest next _ - carries - ⟨other, rfl, alike⟩
  refine ⟨other, latest, ?_, .refl latest, alike⟩
  rw [carries.store_eq]
  rfl

/-- What runs again runs again step by step. -/
theorem Retraces.bind {next : α → Building β} {again_next : α → Heap → Building β → Prop}
    {alike' : Heap → β → β → Prop} (head : Retraces resolve heap world first again alike)
    (tail : ∀ result later after, first.run.run world = (.ok result, after) →
      heap.GrowsTo later → later.Carries after → world.Continues resolve after →
      alike later result result →
      Retraces resolve later after (next result) (again_next result) alike') :
    Retraces resolve heap world (first >>= next) (fun latest second => ∃ start rest,
      second = start >>= rest ∧ again latest start ∧ ∀ result other last, latest.GrowsTo last →
        alike last result other → again_next result last (rest other)) alike' := by
  intro result last run_eq
  obtain ⟨middle, after, first_eq, run_eq⟩ := exists_of_run_bind run_eq
  obtain ⟨later, growsTo, carries, continues, alike_middle, retraces⟩ := head first_eq
  obtain ⟨later', growsTo', carries', continues', alike_result, retraces'⟩ :=
    tail middle later after first_eq growsTo carries continues alike_middle run_eq
  refine ⟨later', growsTo.trans growsTo', carries', continues.trans continues', alike_result, ?_⟩
  rintro latest next _ le latest_carries next_continues ⟨start, rest, rfl, again_start, again_rest⟩
  obtain ⟨other, wider, start_eq, wider_growsTo, alike_other⟩ := retraces (growsTo'.trans le)
    latest_carries (continues'.trans next_continues) again_start
  obtain ⟨other', widest, rest_eq, widest_growsTo, alike_other'⟩ := retraces'
    (le.trans wider_growsTo) (latest_carries.mono wider_growsTo)
    (next_continues.trans (.of_registry_eq rfl))
    (again_rest middle other wider wider_growsTo alike_other)
  exact ⟨other', widest, by rw [run_bind, start_eq]; exact rest_eq,
    wider_growsTo.trans widest_growsTo, alike_other'⟩

/-- Both computations may be replaced by ones which run alike. -/
theorem Retraces.of_run_eq {first' : Building α} {again' : Heap → Building α → Prop}
    (retraces : Retraces resolve heap world first' again' alike)
    (first_eq : first.run.run world = first'.run.run world)
    (agrees : ∀ latest next second, heap.GrowsTo latest → latest.Carries next →
      world.Continues resolve next → again latest second →
        ∃ second', again' latest second' ∧ second.run.run next = second'.run.run next) :
    Retraces resolve heap world first again alike := by
  intro result after run_eq
  rw [first_eq] at run_eq
  obtain ⟨later, growsTo, carries, continues, alike_result, retraces⟩ := retraces run_eq
  refine ⟨later, growsTo, carries, continues, alike_result,
    fun latest next second le latest_carries next_continues again_second => ?_⟩
  obtain ⟨second', again_second, second_eq⟩ := agrees latest next second (growsTo.trans le)
    latest_carries (continues.trans next_continues) again_second
  rw [second_eq]
  exact retraces le latest_carries next_continues again_second

theorem Retraces.imp {again' : Heap → Building α → Prop}
    (retraces : Retraces resolve heap world first again' alike)
    (le : ∀ latest second, heap.GrowsTo latest → again latest second → again' latest second) :
    Retraces resolve heap world first again alike :=
  retraces.of_run_eq rfl fun latest _ second growsTo _ _ again_second =>
    ⟨second, le latest second growsTo again_second, rfl⟩

/-- What runs again may change the result. -/
theorem Retraces.map {alike' : Heap → β → β → Prop}
    (head : Retraces resolve heap world first again alike) {change : α → β}
    (refl : ∀ result later, heap.GrowsTo later → alike later result result →
      alike' later (change result) (change result)) :
    Retraces resolve heap world (first >>= fun result => pure (change result))
      (fun latest second => ∃ (start : Building α) (change' : α → β),
        second = (start >>= fun result => pure (change' result)) ∧ again latest start ∧
          ∀ result other last, latest.GrowsTo last → alike last result other →
            alike' last (change result) (change' other)) alike' := by
  refine (head.bind fun result later _ _ le carries _ alike =>
    retraces_pure carries (refl result later le alike)).imp ?_
  rintro latest _ - ⟨start, change', rfl, again_start, alike_le⟩
  exact ⟨start, _, rfl, again_start, fun result other last growsTo alike =>
    ⟨change' other, rfl, alike_le result other last growsTo alike⟩⟩

theorem retraces_make (carries : heap.Carries world) {making : Making α}
    {again : Heap → Making α → Prop} (replays : making.Replays heap again alike) :
    Retraces resolve heap world (make making)
      (fun latest second => ∃ again_making, second = make again_making ∧ again latest again_making)
      alike := by
  intro result after run_eq
  rw [run_make, ← carries.store_eq] at run_eq
  rcases making_eq : making.run heap.store with _ | ⟨made, store⟩ <;> rw [making_eq] at run_eq <;>
    cases run_eq
  obtain ⟨later, growsTo, rfl, alike_result, replays⟩ := replays making_eq
  refine ⟨later, growsTo, carries.mono growsTo, .of_registry_eq rfl, alike_result, ?_⟩
  rintro latest next _ le latest_carries - ⟨second, rfl, again_second⟩
  obtain ⟨other, last, second_eq, last_growsTo, alike_other⟩ := replays le again_second
  refine ⟨other, last, ?_, last_growsTo, alike_other⟩
  rw [run_make, ← latest_carries.store_eq, second_eq]

/-- A question is answered again. -/
theorem retraces_ask (carries : heap.Carries world) {question : Registry → Store → Option α}
    (refl : ∀ result, question world.registry heap.store = some result → alike heap result result)
    (answers : ∀ result latest next second, question world.registry heap.store = some result →
      heap.GrowsTo latest → latest.Carries next → world.Continues resolve next →
      again latest second → ∃ question' other, second = ask question' ∧
        question' next.registry latest.store = some other ∧ alike latest result other) :
    Retraces resolve heap world (ask question) again alike := by
  intro result after run_eq
  rw [run_ask, ← carries.store_eq] at run_eq
  rcases question_eq : question world.registry heap.store with _ | _ <;>
    rw [question_eq] at run_eq <;> cases run_eq
  refine ⟨heap, .refl heap, carries, .refl world, refl result question_eq,
    fun latest next second le latest_carries continues again_second => ?_⟩
  obtain ⟨question', other, rfl, other_eq, alike⟩ :=
    answers result latest next second question_eq le latest_carries continues again_second
  refine ⟨other, latest, ?_, .refl latest, alike⟩
  rw [run_ask, ← latest_carries.store_eq, other_eq]
  simp only [latest_carries.store_eq]

end Rules

end Building

/-- Whether a symbol is a data type for some actual parameters, apart from labels. -/
def Symbol.IsDataLeaf (symbol : Symbol) : Prop :=
  ∃ name parameters, symbol.withoutLabels = .dataRef name parameters

namespace Reconstruct

open Building (Retraces retraces_pure retraces_make retraces_ask)

variable {α : Type} {resolve : Resolver} {heap : Heap} {world : World}

/-- What is done for a declared type with actual parameters, after comparing these with the formal
ones. -/
def chosen (declared : Ty) (actuals : List Ty) (equal : Bool) : Building Ty :=
  if equal then return declared
  else Building.make (declared.instantiate (.ofParameters declared.parameters actuals))

section Applied

variable {declared : Ty} {actuals : List Ty}

/-- Whether a computation goes on with a declared type and actual parameters which equal given
ones. -/
def AppliesLike (next : Ty → List Ty → Building α) (declared : Ty) (actuals : List Ty)
    (latest : Heap) (second : Building α) : Prop :=
  ∃ declared' actuals', second = next declared' actuals' ∧ latest.Alike declared declared' ∧
    latest.AlikeAll actuals actuals'

theorem chosen_retraces (carries : heap.Carries world) (holds : heap.Holds declared)
    (hold : ∀ actual ∈ actuals, heap.Holds actual) (equal : Bool) :
    Retraces resolve heap world (chosen declared actuals equal)
      (AppliesLike (chosen · · equal) declared actuals) Heap.Alike := by
  cases equal with
  | true =>
    refine (retraces_pure carries (.refl holds)).imp ?_
    rintro latest _ - ⟨declared', _, rfl, alike, -⟩
    exact ⟨declared', rfl, alike⟩
  | false =>
    have binds := Heap.alikeBindings_ofParameters (Heap.Alike.refl holds).parameters (.refl hold)
    refine (retraces_make carries (Ty.instantiate_replays binds holds)).imp ?_
    rintro latest _ - ⟨declared', actuals', rfl, alike, actuals_alike⟩
    exact ⟨_, rfl, declared', _, rfl, alike,
      Heap.alikeBindings_ofParameters alike.parameters actuals_alike⟩

/-- The type of a name for some actual parameters is retraced. -/
theorem applied_retraces (carries : heap.Carries world) (holds : heap.Holds declared)
    (hold : ∀ actual ∈ actuals, heap.Holds actual) :
    Retraces resolve heap world (applied declared actuals) (AppliesLike applied declared actuals)
      Heap.Alike := by
  rw [applied]
  split
  · next none =>
    refine (retraces_pure carries (.refl holds)).imp ?_
    rintro latest _ - ⟨declared', actuals', rfl, alike, actuals_alike⟩
    exact ⟨declared', if_pos (actuals_alike.isEmpty_eq ▸ none), alike⟩
  · next some =>
    have asked : Retraces resolve heap world
        (Building.ask fun _ store => store.sameAll actuals declared.parameters)
        (AppliesLike (fun declared actuals => Building.ask fun _ store =>
          store.sameAll actuals declared.parameters) declared actuals)
        fun _ left right => left = right := by
      refine retraces_ask carries (fun _ _ => rfl) ?_
      rintro result latest next _ found growsTo - - ⟨declared', actuals', rfl, alike, actuals_alike⟩
      exact ⟨_, result, rfl, actuals_alike.sameAll_congr growsTo hold
        (Heap.alikeAll_iff.mp (Heap.Alike.refl holds).parameters).1 alike.parameters found, rfl⟩
    refine (asked.bind fun equal later _ _ growsTo carries _ _ => chosen_retraces carries
      (holds.mono growsTo) (fun actual mem => (hold actual mem).mono growsTo) equal).imp ?_
    rintro latest _ - ⟨declared', actuals', rfl, alike, actuals_alike⟩
    rw [applied, if_neg (actuals_alike.isEmpty_eq ▸ some)]
    refine ⟨_, chosen declared' actuals', rfl, ⟨declared', actuals', rfl, alike, actuals_alike⟩, ?_⟩
    rintro equal _ last growsTo rfl
    exact ⟨declared', actuals', rfl, alike.mono growsTo, actuals_alike.mono growsTo⟩

end Applied

/-- The owner of a constructor is retraced if it is a reference to a name. -/
theorem ownerOf_retraces (carries : heap.Carries world) {owner : Ty} (holds : heap.Holds owner) :
    Retraces resolve heap world (ownerOf owner)
      (fun latest second => (∃ name, owner.RefersTo name) ∧ ∃ owner', second = ownerOf owner' ∧
        latest.Alike owner owner')
      fun last reference other => reference.name = owner.name?.getD owner.display ∧
        last.Alike (.dataRef reference) (.dataRef other) := by
  have hold := (Heap.alikeAll_iff.mp (Heap.Alike.refl holds).parameters).1
  cases owner with
  | dataRef reference =>
    refine (retraces_pure carries ⟨rfl, .refl holds⟩).imp ?_
    rintro latest _ - ⟨-, _, rfl, alike⟩
    obtain ⟨other, rfl, -⟩ := alike.dataRef_inv
    exact ⟨other, rfl, rfl, alike⟩
  | aliasRef reference =>
    refine (retraces_make carries (Making.replays_newData hold reference.name)).imp ?_
    rintro latest _ - ⟨-, _, rfl, alike⟩
    obtain ⟨other, rfl, name_eq, parameters, -⟩ := alike.aliasRef_inv
    exact ⟨Making.newData other.name other.parameters, rfl, other.parameters, by rw [name_eq],
      parameters⟩
  | _ =>
    refine (retraces_make carries (Making.replays_newData hold _)).imp ?_
    rintro latest _ - ⟨⟨_, ⟨⟩⟩, -⟩

section Constructors

variable {name : String} {fields : List (Field Ty)}

/-- The rest of a search for a constructor with a name and fields, after a candidate has been
made. -/
def searched (name : String) (fields : List (Field Ty)) (rest : Building (Option Ty)) :
    Ty → Building (Option Ty)
  | .constructor found =>
    if found.name = name then do
      let equal ← Building.ask fun _ store => store.sameFields found.fields fields
      if equal then return some (.constructor found) else rest
    else rest
  | _ => rest

theorem findConstructor_cons (bindings : Bindings) (name : String) (fields : List (Field Ty))
    (constructor : Constructor Ty) (constructors : List (Constructor Ty)) :
    findConstructor bindings name fields (constructor :: constructors) =
      Building.make (Ty.instantiate bindings (.constructor constructor)) >>=
        searched name fields (findConstructor bindings name fields constructors) := by
  rw [findConstructor]
  congr 1
  funext candidate
  cases candidate <;> rfl

theorem searched_retraces (carries : heap.Carries world) {rest : Building (Option Ty)}
    {again : Heap → Building (Option Ty) → Prop} {candidate : Ty} (holds : heap.Holds candidate)
    (hold : ∀ field ∈ fields, heap.Holds field.type)
    (retraces : ∀ later after, heap.GrowsTo later → later.Carries after →
      Retraces resolve later after rest again Heap.AlikeOption) :
    Retraces resolve heap world (searched name fields rest candidate)
      (fun latest second => ∃ rest' candidate' fields',
        second = searched name fields' rest' candidate' ∧ latest.Alike candidate candidate' ∧
          latest.AlikeFields fields fields' ∧ ∀ last, latest.GrowsTo last → again last rest')
      Heap.AlikeOption := by
  have passed := retraces heap world (.refl heap) carries
  cases candidate with
  | constructor found =>
    rw [searched]
    split
    · next name_eq =>
      have known := (Heap.holds_constructor found).mp holds
      have asked : Retraces resolve heap world
          (Building.ask fun _ store => store.sameFields found.fields fields)
          (fun latest second => ∃ found' fields',
            second = Building.ask (fun _ store => store.sameFields found'.fields fields') ∧
              latest.Alike (.constructor found) (.constructor found') ∧
              latest.AlikeFields fields fields') fun _ left right => left = right := by
        refine retraces_ask carries (fun _ _ => rfl) ?_
        rintro result latest next _ found_eq growsTo - - ⟨found', fields', rfl, alike, fields_alike⟩
        obtain ⟨_, ⟨⟩, -, -, found_alike⟩ := alike.constructor_inv
        exact ⟨_, result, rfl, found_alike.sameFields_congr growsTo
          (fun _ => Heap.holds_of_mem_fields known) hold fields_alike found_eq, rfl⟩
      refine (asked.bind fun equal later after _ growsTo carries _ _ =>
        (?_ : Retraces resolve later after _ (fun latest second => ∃ rest' found',
          second = (if equal then return some (.constructor found') else rest') ∧
            latest.Alike (.constructor found) (.constructor found') ∧ again latest rest') _)).imp ?_
      · cases equal with
        | true =>
          refine (retraces_pure carries (.some (.refl (holds.mono growsTo)))).imp ?_
          rintro latest _ - ⟨_, found', rfl, alike, -⟩
          exact ⟨_, rfl, .some alike⟩
        | false =>
          refine (retraces later after growsTo carries).imp ?_
          rintro latest _ - ⟨_, _, rfl, -, again_rest⟩
          exact again_rest
      · rintro latest _ - ⟨rest', _, fields', rfl, alike, fields_alike, again_rest⟩
        obtain ⟨found', rfl, name_eq', -⟩ := alike.constructor_inv
        rw [searched, if_pos (name_eq' ▸ name_eq)]
        refine ⟨_, _, rfl, ⟨found', fields', rfl, alike, fields_alike⟩, ?_⟩
        rintro equal _ last growsTo rfl
        exact ⟨rest', found', rfl, alike.mono growsTo, again_rest last growsTo⟩
    · next name_ne =>
      refine passed.imp ?_
      rintro latest _ - ⟨rest', _, fields', rfl, alike, -, again_rest⟩
      obtain ⟨found', rfl, name_eq, -⟩ := alike.constructor_inv
      rw [searched, if_neg (name_eq ▸ name_ne)]
      exact again_rest latest (.refl latest)
  | _ =>
    refine passed.imp ?_
    rintro latest _ - ⟨rest', candidate', fields', rfl, alike, -, again_rest⟩
    cases candidate' with
    | constructor => cases Store.same_symm alike.equal
    | _ => exact again_rest latest (.refl latest)

theorem findConstructor_retraces (carries : heap.Carries world) {bindings : Bindings}
    {constructors : List (Constructor Ty)} (binds : heap.AlikeBindings bindings bindings)
    (hold : ∀ field ∈ fields, heap.Holds field.type)
    (known : ∀ constructor ∈ constructors, heap.Known (.constructor constructor)) :
    Retraces resolve heap world (findConstructor bindings name fields constructors)
      (fun latest second => ∃ others fields',
        second = findConstructor others name fields' constructors ∧
          latest.AlikeBindings bindings others ∧ latest.AlikeFields fields fields')
      Heap.AlikeOption := by
  induction constructors generalizing heap world with
  | nil =>
    refine (retraces_pure carries .none).imp ?_
    rintro latest _ - ⟨_, _, rfl, -⟩
    exact ⟨none, rfl, .none⟩
  | cons constructor constructors ih =>
    obtain ⟨head_known, tail_known⟩ := List.forall_mem_cons.mp known
    have head_holds := (Heap.holds_constructor constructor).mpr head_known
    rw [findConstructor_cons]
    refine ((retraces_make carries (Ty.instantiate_replays binds head_holds)).bind
      fun candidate later after _ growsTo carries _ alike => searched_retraces carries
        alike.left_holds (fun field mem => (hold field mem).mono growsTo)
        fun wider last growsTo' carries => ih carries (binds.mono (growsTo.trans growsTo'))
          (fun field mem => (hold field mem).mono (growsTo.trans growsTo'))
          fun other mem => (growsTo.trans growsTo').known (tail_known other mem)).imp ?_
    rintro latest _ le ⟨others, fields', rfl, binds, fields_alike⟩
    rw [findConstructor_cons]
    refine ⟨_, _, rfl, ⟨_, rfl, _, others, rfl, .refl (head_holds.mono le), binds⟩,
      fun _ candidate' last growsTo alike => ?_⟩
    exact ⟨_, candidate', fields', rfl, alike, fields_alike.mono growsTo, fun wider growsTo' =>
      ⟨others, fields', rfl, binds.mono (growsTo.trans growsTo'),
        fields_alike.mono (growsTo.trans growsTo')⟩⟩

/-- A constructor which has been found, or else a new one. -/
def foundOr (owner : DataRef Ty) (name : String) (fields : List (Field Ty)) :
    Option Ty → Building Ty
  | some found => return found
  | none => do
    let made ← Building.make (Making.newConstructor owner name fields ∅)
    return .constructor made

/-- The constructor of a data type which has been declared with some formal parameters. -/
def constructorIn (formals : List Ty) (owner : DataRef Ty) (name : String)
    (fields : List (Field Ty)) : Building Ty := do
  let constructors ← Building.ask (·.constructorsOf · owner.name)
  let found ← findConstructor (.ofParameters formals owner.parameters) name fields constructors
  foundOr owner name fields found

theorem run_constructorOf (owner : DataRef Ty) (name : String) (fields : List (Field Ty)) :
    (constructorOf owner name fields).run.run world =
      (constructorIn (((world.registry.lookupData? owner.name).map (·.parameters)).getD [])
        owner name fields).run.run world := by
  rw [constructorOf, Building.run_bind]
  rfl

section Owned

variable {owner : DataRef Ty}

theorem foundOr_retraces (carries : heap.Carries world) (owner_known : heap.Known (.dataRef owner))
    (hold : ∀ field ∈ fields, heap.Holds field.type) {found : Option Ty}
    (found_hold : ∀ type, found = some type → heap.Holds type) :
    Retraces resolve heap world (foundOr owner name fields found)
      (fun latest second => ∃ owner' fields' found', second = foundOr owner' name fields' found' ∧
        latest.Alike (.dataRef owner) (.dataRef owner') ∧ latest.AlikeFields fields fields' ∧
          latest.AlikeOption found found') Heap.Alike := by
  cases found with
  | some found =>
    refine (retraces_pure carries (.refl (found_hold found rfl))).imp ?_
    rintro latest _ - ⟨_, _, _, rfl, -, -, alike⟩
    cases alike with
    | some alike => exact ⟨_, rfl, alike⟩
  | none =>
    refine ((retraces_make carries (Making.replays_newConstructor name owner_known hold ∅)).map
      fun _ _ _ alike => alike).imp ?_
    rintro latest _ - ⟨owner', fields', _, rfl, owners, fields_alike, ⟨⟩⟩
    exact ⟨_, .constructor, rfl, ⟨_, rfl, owner', fields', ∅, rfl, owners, fields_alike⟩,
      fun _ _ _ _ alike => alike⟩

theorem constructorIn_retraces (carries : heap.Carries world) {formals : List Ty}
    (formals_hold : ∀ formal ∈ formals, heap.Holds formal)
    (owner_known : heap.Known (.dataRef owner)) (hold : ∀ field ∈ fields, heap.Holds field.type) :
    Retraces resolve heap world (constructorIn formals owner name fields)
      (fun latest second => world.Fixes resolve owner.name ∧ ∃ owner' fields',
        second = constructorIn formals owner' name fields' ∧
          latest.Alike (.dataRef owner) (.dataRef owner') ∧ latest.AlikeFields fields fields')
      Heap.Alike := by
  have owner_alike : heap.Alike (.dataRef owner) (.dataRef owner) :=
    .refl ((Heap.holds_dataRef owner).mpr owner_known)
  have binds := Heap.alikeBindings_ofParameters (.refl formals_hold) owner_alike.parameters
  have asked : Retraces resolve heap world (Building.ask (·.constructorsOf · owner.name))
      (fun _ second => world.Fixes resolve owner.name ∧
        second = Building.ask (·.constructorsOf · owner.name))
      fun last constructors others => others = constructors ∧
        ∀ constructor ∈ constructors, last.Known (.constructor constructor) := by
    have known {constructors : List (Constructor Ty)}
        (found : world.registry.constructorsOf heap.store owner.name = some constructors) :=
      carries.known_of_mem_constructorsOf found
    refine retraces_ask carries (fun _ found => ⟨rfl, known found⟩) ?_
    rintro constructors latest next _ found growsTo - continues ⟨fixes, rfl⟩
    refine ⟨_, constructors, rfl, ?_, rfl, fun constructor mem =>
      growsTo.known (known found constructor mem)⟩
    exact (carries.constructorsOf_later growsTo continues fixes).trans found
  refine (asked.bind fun constructors later _ _ growsTo carries _ known =>
    (findConstructor_retraces carries (binds.mono growsTo)
      (fun field mem => (hold field mem).mono growsTo) known.2).bind
        fun found wider _ _ growsTo' carries _ alike => foundOr_retraces carries
          (growsTo'.known (growsTo.known owner_known))
          (fun field mem => (hold field mem).mono (growsTo.trans growsTo')) alike.right_holds).imp ?_
  rintro latest _ le ⟨fixes, owner', fields', rfl, owners, fields_alike⟩
  obtain ⟨_, ⟨⟩, name_eq, parameters⟩ := owners.dataRef_inv
  rw [constructorIn, ← name_eq]
  have latest_binds := Heap.alikeBindings_ofParameters
    (.refl fun formal mem => (formals_hold formal mem).mono le) parameters
  refine ⟨_, _, rfl, ⟨fixes, rfl⟩, ?_⟩
  rintro constructors _ last growsTo ⟨rfl, -⟩
  refine ⟨_, _, rfl, ⟨_, fields', rfl, latest_binds.mono growsTo, fields_alike.mono growsTo⟩,
    fun _ found' last growsTo' alike => ?_⟩
  exact ⟨owner', fields', found', rfl, owners.mono (growsTo.trans growsTo'),
    fields_alike.mono (growsTo.trans growsTo'), alike⟩

/-- The constructor of a data type is retraced if the name of the data type is fixed. -/
theorem constructorOf_retraces (carries : heap.Carries world)
    (owner_known : heap.Known (.dataRef owner)) (hold : ∀ field ∈ fields, heap.Holds field.type) :
    Retraces resolve heap world (constructorOf owner name fields)
      (fun latest second => world.Fixes resolve owner.name ∧ ∃ owner' fields',
        second = constructorOf owner' name fields' ∧
          latest.Alike (.dataRef owner) (.dataRef owner') ∧ latest.AlikeFields fields fields')
      Heap.Alike := by
  refine (constructorIn_retraces carries (fun formal mem => ?_) owner_known hold).of_run_eq
    (run_constructorOf ..) ?_
  · cases declared_eq : world.registry.lookupData? owner.name with
    | none => simp [declared_eq] at mem
    | some declared =>
      have holds := carries.holds (Registry.lookupData?_eq_some_iff.mp declared_eq)
      exact Heap.holds_of_mem_parameters ((Heap.holds_dataRef declared).mp holds)
        (by simpa [declared_eq] using mem)
  · rintro latest next _ - - continues ⟨fixes, owner', fields', rfl, owners, fields_alike⟩
    obtain ⟨_, ⟨⟩, name_eq, -⟩ := owners.dataRef_inv
    refine ⟨_, ⟨fixes, owner', fields', rfl, owners, fields_alike⟩, ?_⟩
    rw [run_constructorOf, ← name_eq, Registry.lookupData?, continues.lookup?_eq fixes,
      Registry.lookupData?]

end Owned

end Constructors

section Symbols

variable {named : String → List Ty → Building Ty} {sort : String → Building Unit} {again : Prop}

/-- Whether the type of a symbol is retraced, with `named` and `sort` as they are, if it is
reconstructed again. -/
def Retraceable (resolve : Resolver) (named : String → List Ty → Building Ty)
    (sort : String → Building Unit) (again : Prop) (symbol : Symbol) : Prop :=
  ∀ ⦃heap : Heap⦄ ⦃world : World⦄, heap.Carries world →
    Retraces resolve heap world (typeWith named sort symbol)
      (fun _ second => again ∧ second = typeWith named sort symbol) Heap.Alike

theorem typesWith_retraces (carries : heap.Carries world) {symbols : List Symbol}
    (retraceable : ∀ symbol ∈ symbols, Retraceable resolve named sort again symbol) :
    Retraces resolve heap world (typesWith named sort symbols)
      (fun _ second => again ∧ second = typesWith named sort symbols) Heap.AlikeAll := by
  induction symbols generalizing heap world with
  | nil =>
    refine (retraces_pure carries .nil).imp ?_
    rintro latest _ - ⟨-, rfl⟩
    exact ⟨[], rfl, .nil⟩
  | cons symbol symbols ih =>
    obtain ⟨head, tail⟩ := List.forall_mem_cons.mp retraceable
    rw [typesWith]
    refine ((head carries).bind fun type _ _ _ _ carries _ alike => (ih carries tail).map
      fun _ _ growsTo rest => .cons (alike.mono growsTo) rest).imp ?_
    rintro latest _ - ⟨once, rfl⟩
    refine ⟨_, _, rfl, ⟨once, rfl⟩, fun _ other last growsTo alike => ?_⟩
    exact ⟨_, _, rfl, ⟨once, rfl⟩, fun _ _ _ growsTo rest => .cons (alike.mono growsTo) rest⟩

theorem fieldsWith_retraces (carries : heap.Carries world) {symbols : List Symbol}
    (retraceable : ∀ symbol ∈ symbols, Retraceable resolve named sort again symbol) :
    Retraces resolve heap world (fieldsWith named sort symbols)
      (fun _ second => again ∧ second = fieldsWith named sort symbols) Heap.AlikeFields := by
  induction symbols generalizing heap world with
  | nil =>
    refine (retraces_pure carries .nil).imp ?_
    rintro latest _ - ⟨-, rfl⟩
    exact ⟨[], rfl, .nil⟩
  | cons symbol symbols ih =>
    obtain ⟨head, tail⟩ := List.forall_mem_cons.mp retraceable
    rw [fieldsWith]
    refine ((head carries).bind fun type _ _ _ _ carries _ alike => (ih carries tail).map
      fun _ _ growsTo rest => .cons ⟨rfl, alike.mono growsTo⟩ rest).imp ?_
    rintro latest _ - ⟨once, rfl⟩
    refine ⟨_, _, rfl, ⟨once, rfl⟩, fun _ other last growsTo alike => ?_⟩
    exact ⟨_, _, rfl, ⟨once, rfl⟩, fun _ _ _ growsTo rest => .cons ⟨rfl, alike.mono growsTo⟩ rest⟩

/-- Labels do not count for the type of a name. -/
theorem typeWith_dataLeaf {symbol : Symbol} {name : String} {parameters : List Symbol}
    (leaf_eq : symbol.withoutLabels = .dataRef name parameters) :
    typeWith named sort symbol = typesWith named sort parameters >>= named name := by
  induction symbol using Symbol.withoutLabels.induct with
  | case1 _ inner ih =>
    rw [typeWith]
    exact ih leaf_eq
  | case2 symbol not_label =>
    rw [Symbol.withoutLabels] at leaf_eq
    · rw [leaf_eq, typeWith]
    · exact not_label

/-- The constructor of a symbol, after the type of its owner. -/
def constructorWith (named : String → List Ty → Building Ty) (sort : String → Building Unit)
    (name : String) (fields : List Symbol) (type : Ty) : Building Ty := do
  let owner ← ownerOf type
  constructorOf owner name (← fieldsWith named sort fields)

theorem constructorWith_retraces (carries : heap.Carries world) (name : String)
    {fields : List Symbol} {type : Ty} (holds : heap.Holds type)
    (fixed : again → ∃ name, type.RefersTo name ∧ world.Fixes resolve name)
    (retraceable : ∀ symbol ∈ fields, Retraceable resolve named sort again symbol) :
    Retraces resolve heap world (constructorWith named sort name fields type)
      (fun latest second => again ∧ ∃ type', second = constructorWith named sort name fields type' ∧
        latest.Alike type type') Heap.Alike := by
  refine ((ownerOf_retraces carries holds).bind
    fun owner later after _ _ carries continues ⟨name_eq, owners⟩ =>
      (fieldsWith_retraces carries retraceable).bind
        fun fieldTypes wider last _ growsTo carries continues' fields_alike =>
          (constructorOf_retraces carries
            ((Heap.holds_dataRef owner).mp (owners.left_holds.mono growsTo))
            (Heap.alikeFields_iff.mp fields_alike).1).imp
              (?_ : ∀ latest second, wider.GrowsTo latest → (again ∧ ∃ owner' fields',
                second = constructorOf owner' name fields' ∧
                  latest.Alike (.dataRef owner) (.dataRef owner') ∧
                  latest.AlikeFields fieldTypes fields') → _)).imp ?_
  · rintro latest _ - ⟨once, owner', fields', rfl, owners, fields_alike⟩
    obtain ⟨other, refersTo, fixes⟩ := fixed once
    have owner_fixes : world.Fixes resolve owner.name := by
      rw [name_eq, refersTo.name?_eq]
      exact fixes
    exact ⟨continues'.fixes (continues.fixes owner_fixes), owner', fields', rfl, owners,
      fields_alike⟩
  · rintro latest _ - ⟨once, type', rfl, alike⟩
    obtain ⟨other, refersTo, -⟩ := fixed once
    refine ⟨_, _, rfl, ⟨⟨other, refersTo⟩, type', rfl, alike⟩, fun _ owner' _ _ owners => ?_⟩
    refine ⟨_, _, rfl, ⟨once, rfl⟩, fun _ fields' _ growsTo fields_alike => ?_⟩
    exact ⟨once, owner', fields', rfl, owners.2.mono growsTo, fields_alike⟩

/-- The type of a symbol is retraced if the types of the names in it are. -/
theorem typeWith_retraceable
    (names : ∀ ⦃heap : Heap⦄ ⦃world : World⦄, heap.Carries world → ∀ name actuals,
      (∀ actual ∈ actuals, heap.Holds actual) → Retraces resolve heap world (named name actuals)
        (fun latest second => ∃ actuals', second = named name actuals' ∧
          latest.AlikeAll actuals actuals') Heap.Alike)
    (sorts : ∀ ⦃heap : Heap⦄ ⦃world : World⦄, heap.Carries world → ∀ name,
      Retraces resolve heap world (sort name) (fun _ second => second = sort name)
        fun _ _ _ => True)
    (fixed : again → ∀ ⦃heap : Heap⦄ ⦃world : World⦄, heap.Carries world → ∀ owner type after,
      owner.IsDataLeaf → (typeWith named sort owner).run.run world = (.ok type, after) →
        ∃ name, type.RefersTo name ∧ after.Fixes resolve name)
    {symbol : Symbol} (owned : again → ∀ owner ∈ symbol.owners, owner.IsDataLeaf) :
    Retraceable resolve named sort again symbol := by
  intro heap world carries
  induction symbol using Symbol.induction generalizing heap world with
  | prim primitive =>
    refine (retraces_pure carries (.refl (Heap.holds_prim primitive))).imp ?_
    rintro latest _ - ⟨-, rfl⟩
    exact ⟨_, rfl, .refl (Heap.holds_prim primitive)⟩
  | label name inner ih => exact ih owned carries
  | list element ih =>
    refine ((ih owned carries).map fun _ _ _ alike => Heap.alike_list_iff.mpr ⟨_, rfl, alike⟩).imp ?_
    rintro latest _ - ⟨once, rfl⟩
    exact ⟨_, _, rfl, ⟨once, rfl⟩, fun _ _ _ _ alike => Heap.alike_list_iff.mpr ⟨_, rfl, alike⟩⟩
  | set element ih =>
    refine ((ih owned carries).map fun _ _ _ alike => Heap.alike_set_iff.mpr ⟨_, rfl, alike⟩).imp ?_
    rintro latest _ - ⟨once, rfl⟩
    exact ⟨_, _, rfl, ⟨once, rfl⟩, fun _ _ _ _ alike => Heap.alike_set_iff.mpr ⟨_, rfl, alike⟩⟩
  | reified inner ih =>
    refine ((ih owned carries).map fun _ _ _ alike =>
      Heap.alike_reified_iff.mpr ⟨_, rfl, alike⟩).imp ?_
    rintro latest _ - ⟨once, rfl⟩
    exact ⟨_, _, rfl, ⟨once, rfl⟩,
      fun _ _ _ _ alike => Heap.alike_reified_iff.mpr ⟨_, rfl, alike⟩⟩
  | parameter name bound ih =>
    refine ((ih owned carries).map fun _ _ _ alike =>
      Heap.alike_parameter_iff.mpr ⟨_, rfl, alike⟩).imp ?_
    rintro latest _ - ⟨once, rfl⟩
    exact ⟨_, _, rfl, ⟨once, rfl⟩,
      fun _ _ _ _ alike => Heap.alike_parameter_iff.mpr ⟨_, rfl, alike⟩⟩
  | map key value ih_key ih_value =>
    simp only [Symbol.owners, List.forall_mem_append] at owned
    refine ((ih_key (fun once => (owned once).1) carries).bind fun first _ _ _ _ carries _ keys =>
      (ih_value (fun once => (owned once).2) carries).map fun _ _ growsTo values =>
        Heap.alike_map_iff.mpr ⟨_, _, rfl, keys.mono growsTo, values⟩).imp ?_
    rintro latest _ - ⟨once, rfl⟩
    refine ⟨_, _, rfl, ⟨once, rfl⟩, fun _ _ last growsTo keys => ?_⟩
    exact ⟨_, _, rfl, ⟨once, rfl⟩, fun _ _ _ growsTo values =>
      Heap.alike_map_iff.mpr ⟨_, _, rfl, keys.mono growsTo, values⟩⟩
  | tuple fields ih =>
    simp only [Symbol.owners, Symbol.ownersOfAll_eq, List.forall_mem_flatMap] at owned
    have retraced := fieldsWith_retraces carries fun field mem =>
      ih field mem fun once => owned once field mem
    refine (retraced.map fun _ _ _ alike => Heap.alike_tuple_iff.mpr ⟨_, rfl, alike⟩).imp ?_
    rintro latest _ - ⟨once, rfl⟩
    exact ⟨_, _, rfl, ⟨once, rfl⟩, fun _ _ _ _ alike => Heap.alike_tuple_iff.mpr ⟨_, rfl, alike⟩⟩
  | func result arguments ih ih_arguments =>
    simp only [Symbol.owners, Symbol.ownersOfAll_eq, List.forall_mem_append,
      List.forall_mem_flatMap] at owned
    refine ((ih (fun once => (owned once).1) carries).bind fun _ _ _ _ _ carries _ results =>
      (fieldsWith_retraces carries fun field mem =>
        ih_arguments field mem fun once => (owned once).2 field mem).map fun _ _ growsTo alike =>
          Heap.alike_func_iff.mpr ⟨_, _, rfl, results.mono growsTo, alike⟩).imp ?_
    rintro latest _ - ⟨once, rfl⟩
    refine ⟨_, _, rfl, ⟨once, rfl⟩, fun _ _ last growsTo results => ?_⟩
    exact ⟨_, _, rfl, ⟨once, rfl⟩, fun _ _ _ growsTo alike =>
      Heap.alike_func_iff.mpr ⟨_, _, rfl, results.mono growsTo, alike⟩⟩
  | dataRef name parameters ih | aliasRef name parameters ih =>
    simp only [Symbol.owners, Symbol.ownersOfAll_eq, List.forall_mem_flatMap] at owned
    have retraced := typesWith_retraces carries fun parameter mem =>
      ih parameter mem fun once => owned once parameter mem
    refine (retraced.bind fun actuals _ _ _ _ carries _ alike =>
      names carries name actuals (Heap.alikeAll_iff.mp alike).1).imp ?_
    rintro latest _ - ⟨once, rfl⟩
    exact ⟨_, _, rfl, ⟨once, rfl⟩, fun _ actuals' _ _ alike => ⟨actuals', rfl, alike⟩⟩
  | constructor owner name fields ih_owner ih =>
    simp only [Symbol.owners, Symbol.ownersOfAll_eq, List.forall_mem_cons, List.forall_mem_append,
      List.forall_mem_flatMap] at owned
    refine ((ih_owner (fun once => (owned once).2.1) carries).bind
      fun type _ after run_eq _ carries' _ alike => constructorWith_retraces carries' name
        alike.left_holds (fun once => fixed once carries owner type after (owned once).1 run_eq)
        fun field mem => ih field mem fun once => (owned once).2.2 field mem).imp ?_
    rintro latest _ - ⟨once, rfl⟩
    exact ⟨_, _, rfl, ⟨once, rfl⟩, fun _ type' _ _ alike => ⟨once, type', rfl, alike⟩⟩
  | sort name =>
    refine ((sorts carries name).map fun _ _ _ _ => .refl (Heap.holds_sort name)).imp ?_
    rintro latest _ - ⟨-, rfl⟩
    exact ⟨_, _, rfl, rfl, fun _ _ _ _ _ => .refl (Heap.holds_sort name)⟩

end Symbols

end Reconstruct

end Reification
