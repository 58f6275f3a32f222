import Reification.Proofs.Conflict
import Reification.Proofs.Insertions
import Reification.Proofs.Retracing

/-!
# Resolving a symbol twice

Reconstructing a symbol leaves every name which it expands declared as a type which equals the result.
So a second reconstruction with the same definitions finds what the first one has declared, gives an
equal type and leaves the registry as it is.
-/

namespace Reification

open Reconstruct (Resolver)

namespace Building

variable {α β : Type} {resolve : Resolver} {before world : World} {heap : Heap}

/-- As far as a computation ends, a heap grows to one which has everything that is declared then, and
what a former world has fixed is as it was. -/
def Retains (resolve : Resolver) (before : World) (heap : Heap) (building : Building α)
    (world : World) (post : Heap → World → α → Prop) : Prop :=
  ∀ ⦃result after⦄, building.run.run world = (.ok result, after) →
    ∃ later : Heap, heap.GrowsTo later ∧ later.Carries after ∧ before.Continues resolve after ∧
      post later after result

variable {building : Building α} {post : Heap → World → α → Prop}

theorem retains_pure (carries : heap.Carries world) (continues : before.Continues resolve world)
    {result : α} (holds : post heap world result) :
    Retains resolve before heap (pure result) world post := by
  rintro _ _ ⟨⟩
  exact ⟨heap, .refl heap, carries, continues, holds⟩

theorem Retains.bind {next : α → Building β} {post' : Heap → World → β → Prop}
    (head : Retains resolve before heap building world post)
    (tail : ∀ result later after, building.run.run world = (.ok result, after) →
      heap.GrowsTo later → later.Carries after → before.Continues resolve after →
      post later after result → Retains resolve before later (next result) after post') :
    Retains resolve before heap (building >>= next) world post' := by
  intro result last run_eq
  obtain ⟨middle, after, head_eq, run_eq⟩ := exists_of_run_bind run_eq
  obtain ⟨later, growsTo, carries, continues, holds⟩ := head head_eq
  obtain ⟨later', growsTo', rest⟩ :=
    tail middle later after head_eq growsTo carries continues holds run_eq
  exact ⟨later', growsTo.trans growsTo', rest⟩

/-- A computation may go on with references which it has made. -/
theorem retains_make_bind {making : Making α} {next : α → Building β} {result : α} {store : Store}
    {wider : Heap} {post : Heap → World → β → Prop}
    (run_eq : making.run world.store = some (result, store)) (growsTo : heap.GrowsTo wider)
    (tail : Retains resolve before wider (next result) { world with store } post) :
    Retains resolve before heap (make making >>= next) world post := by
  intro last after run_eq'
  rw [run_bind, run_make, run_eq] at run_eq'
  obtain ⟨later, growsTo', rest⟩ := tail run_eq'
  exact ⟨later, growsTo.trans growsTo', rest⟩

/-- A computation may go on in a registry which it has changed. -/
theorem retains_register_bind {change : Registry → Store → Except Failure Registry}
    {next : Unit → Building β} {post : Heap → World → β → Prop}
    (tail : ∀ registry, change world.registry world.store = .ok registry →
      Retains resolve before heap (next ()) { world with registry } post) :
    Retains resolve before heap (register change >>= next) world post := by
  intro last after run_eq
  rw [run_bind, run_register] at run_eq
  rcases change_eq : change world.registry world.store with _ | registry <;>
    rw [change_eq] at run_eq
  · cases run_eq
  · exact tail registry change_eq run_eq

theorem Retains.mono {post' : Heap → World → α → Prop}
    (retains : Retains resolve before heap building world post)
    (le : ∀ later after result, heap.GrowsTo later → post later after result →
      post' later after result) : Retains resolve before heap building world post' := by
  intro result after run_eq
  obtain ⟨later, growsTo, carries, continues, holds⟩ := retains run_eq
  exact ⟨later, growsTo, carries, continues, le later after result growsTo holds⟩

/-- What is retraced retains what was fixed before. -/
theorem Retraces.retains {again : Heap → Building α → Prop} {alike : Heap → α → α → Prop}
    (retraces : Retraces resolve heap world building again alike)
    (continues : before.Continues resolve world) :
    Retains resolve before heap building world fun later after result =>
      world.Continues resolve after ∧ alike later result result := by
  intro result after run_eq
  obtain ⟨later, growsTo, carries, continues', alike, -⟩ := retraces run_eq
  exact ⟨later, growsTo, carries, continues.trans continues', continues', alike⟩

end Building

namespace Reconstruct

open Building (Retains Retraces retraces_pure retraces_make retains_pure)

variable {resolve : Resolver} {before world : World} {heap : Heap} {name : String}

/-- Adding the rules of a nonterminal again changes nothing. -/
theorem sortWith_retraces (carries : heap.Carries world) (name : String) :
    Retraces resolve heap world (sortWith resolve name)
      (fun _ second => second = sortWith resolve name) fun _ _ _ => True := by
  have run_eq {rule : Production} (first_eq : (resolve name).first? = some rule) (world : World) :
      (sortWith resolve name).run.run world = (.ok (), { world with
        registry := world.registry.addRules name rule.subject (resolve name).toList }) := by
    simp only [sortWith, first_eq]
    exact Building.run_register _
  rcases first_eq : (resolve name).first? with _ | rule
  · have sort_eq : sortWith resolve name = return () := by simp only [sortWith, first_eq]
    rw [sort_eq]
    refine (retraces_pure carries trivial).imp ?_
    rintro _ _ - rfl
    exact ⟨(), rfl, trivial⟩
  · intro result after run_eq'
    rw [run_eq first_eq] at run_eq'
    cases run_eq'
    refine ⟨heap, .refl heap, carries.addRules .., .addRules .., trivial, ?_⟩
    rintro latest next _ - latest_carries continues rfl
    have added_eq : (world.registry.addRules name rule.subject (resolve name).toList).own.rules.get?
        name = some _ := (Table.get?_insert ..).trans (if_pos rfl)
    obtain ⟨wider, wider_eq, rules_le⟩ := continues.rules_le added_eq
    refine ⟨(), latest, ?_, .refl latest, trivial⟩
    rw [run_eq first_eq, latest_carries.store_eq, Registry.addRules_eq_self wider_eq]
    exact fun rule mem => rules_le rule (OrderedSet.mem_insertAll.mpr (.inr mem))

/-- A reference to a name refers to it for other actual parameters, too. -/
theorem refersTo_of_applied {declared result : Ty} {actuals : List Ty} {after : World}
    (refersTo : declared.RefersTo name)
    (run_eq : (applied declared actuals).run.run world = (.ok result, after)) :
    result.RefersTo name := by
  have meets : (applied declared actuals).Meets world (fun result _ => result.RefersTo name)
      fun _ _ => True := by
    unfold applied
    split
    · exact refersTo
    · refine Building.meets_bind.mpr (Building.meets_ask.mpr ?_)
      split
      · split
        · exact refersTo
        · obtain ⟨kind, kind_eq, name_eq⟩ := Ty.refersTo_iff.mp refersTo
          have kept : (declared.instantiate (.ofParameters declared.parameters actuals)).Meets
              world.store (fun result _ => result.kind? = some kind ∧
                result.name? = declared.name?) True := Ty.instantiate_reference kind_eq world.store
          refine Building.meets_make.mpr ?_
          split
          · next made_eq =>
            obtain ⟨kind_eq, name_eq'⟩ := (Making.meets_of_run_eq made_eq).mp kept
            exact Ty.refersTo_iff.mpr ⟨kind, kind_eq, name_eq'.trans name_eq⟩
          · trivial
      · trivial
  exact (Building.meets_iff_of_run_eq_ok run_eq).mp meets

section Named

variable {expand : String → Symbol → Building Ty} {actuals : List Ty}

/-- Whether a name which is expanded is declared afterwards as a type which equals the result. -/
def Declares (resolve : Resolver) (expand : String → Symbol → Building Ty) : Prop :=
  ∀ ⦃heap : Heap⦄ ⦃world : World⦄ ⦃name production⦄, heap.Carries world →
    world.registry.lookup? name = none → (resolve name).first? = some production →
      Retains resolve world heap (expand name production.subject) world fun later after type =>
        ∃ declared, after.registry.lookup? name = some declared ∧ later.Alike type declared

/-- What is done for a name depends on whether it is declared. -/
theorem run_namedWith (world : World) : (namedWith resolve expand name actuals).run.run world =
    (match world.registry.lookup? name with
      | some declared => applied declared actuals
      | none => match (resolve name).first? with
        | some production =>
          expand name production.subject >>= fun declared => applied declared actuals
        | none => do return .dataRef (← Building.make (Making.newData name actuals)) :
      Building Ty).run.run world := by
  rw [namedWith, Building.run_bind]
  rfl

theorem run_namedWith_declared {declared : Ty}
    (lookup_eq : world.registry.lookup? name = some declared) :
    (namedWith resolve expand name actuals).run.run world =
      (applied declared actuals).run.run world := by
  rw [run_namedWith, lookup_eq]

theorem run_namedWith_expanded {production : Production}
    (undeclared : world.registry.lookup? name = none)
    (first_eq : (resolve name).first? = some production) :
    (namedWith resolve expand name actuals).run.run world =
      (expand name production.subject >>= fun declared => applied declared actuals).run.run world := by
  rw [run_namedWith, undeclared, first_eq]

theorem run_namedWith_unknown (undeclared : world.registry.lookup? name = none)
    (first_eq : (resolve name).first? = none) :
    (namedWith resolve expand name actuals).run.run world =
      (do return .dataRef (← Building.make (Making.newData name actuals)) :
        Building Ty).run.run world := by
  rw [run_namedWith, undeclared, first_eq]

/-- The type of a name is found again: where it was expanded, it has been declared. -/
theorem namedWith_retraces (declares : Declares resolve expand) (carries : heap.Carries world)
    (hold : ∀ actual ∈ actuals, heap.Holds actual) :
    Retraces resolve heap world (namedWith resolve expand name actuals)
      (fun latest second => ∃ actuals', second = namedWith resolve expand name actuals' ∧
        latest.AlikeAll actuals actuals') Heap.Alike := by
  cases lookup_eq : world.registry.lookup? name with
  | some declared =>
    have fixes : world.Fixes resolve name := .inl (by simp [lookup_eq])
    have holds := carries.holds lookup_eq
    refine (applied_retraces carries holds hold).of_run_eq (run_namedWith_declared lookup_eq) ?_
    rintro latest next _ growsTo - continues ⟨actuals', rfl, alike⟩
    exact ⟨_, ⟨declared, actuals', rfl, .refl (holds.mono growsTo), alike⟩,
      run_namedWith_declared ((continues.lookup?_eq fixes).trans lookup_eq)⟩
  | none =>
    cases first_eq : (resolve name).first? with
    | none =>
      have fixes : world.Fixes resolve name := .inr first_eq
      refine ((retraces_make carries (Making.replays_newData hold name)).map
        fun _ _ _ alike => alike.2).of_run_eq (run_namedWith_unknown lookup_eq first_eq) ?_
      rintro latest next _ - - continues ⟨actuals', rfl, alike⟩
      exact ⟨_, ⟨_, .dataRef, rfl, ⟨_, rfl, actuals', rfl, alike⟩, fun _ _ _ _ alike => alike.2⟩,
        run_namedWith_unknown ((continues.lookup?_eq fixes).trans lookup_eq) first_eq⟩
    | some production =>
      intro result last run_eq
      rw [run_namedWith_expanded lookup_eq first_eq] at run_eq
      obtain ⟨type, after, expand_eq, run_eq⟩ := Building.exists_of_run_bind run_eq
      obtain ⟨later, growsTo, carries, continues, declared, declared_eq, alike⟩ :=
        declares carries lookup_eq first_eq expand_eq
      obtain ⟨wider, growsTo', carries', continues', alike_result, retraces⟩ := applied_retraces
        carries alike.left_holds (fun actual mem => (hold actual mem).mono growsTo) run_eq
      refine ⟨wider, growsTo.trans growsTo', carries', continues.trans continues', alike_result, ?_⟩
      rintro latest next _ le latest_carries next_continues ⟨actuals', rfl, actuals_alike⟩
      have fixes : after.Fixes resolve name := .inl (by simp [declared_eq])
      rw [run_namedWith_declared (((continues'.trans next_continues).lookup?_eq fixes).trans
        declared_eq)]
      exact retraces le latest_carries next_continues
        ⟨declared, actuals', rfl, alike.mono (growsTo'.trans le), actuals_alike⟩

/-- The type of a name refers to it, and the name is fixed then. -/
theorem namedWith_fixes (declares : Declares resolve expand) (carries : heap.Carries world)
    (hold : ∀ actual ∈ actuals, heap.Holds actual) {type : Ty} {last : World}
    (run_eq : (namedWith resolve expand name actuals).run.run world = (.ok type, last)) :
    type.RefersTo name ∧ last.Fixes resolve name := by
  obtain ⟨wider, growsTo, carries', continues, -⟩ :=
    namedWith_retraces declares carries hold run_eq
  cases lookup_eq : world.registry.lookup? name with
  | some declared =>
    rw [run_namedWith_declared lookup_eq] at run_eq
    exact ⟨refersTo_of_applied (carries.refersTo lookup_eq) run_eq,
      continues.fixes (.inl (by simp [lookup_eq]))⟩
  | none =>
    cases first_eq : (resolve name).first? with
    | none =>
      rw [run_namedWith_unknown lookup_eq first_eq] at run_eq
      cases run_eq
      exact ⟨rfl, .inr first_eq⟩
    | some production =>
      rw [run_namedWith_expanded lookup_eq first_eq] at run_eq
      obtain ⟨type, after, expand_eq, run_eq⟩ := Building.exists_of_run_bind run_eq
      obtain ⟨later, growsTo, carries, continues, declared, declared_eq, alike⟩ :=
        declares carries lookup_eq first_eq expand_eq
      obtain ⟨_, _, _, continues', -⟩ := applied_retraces carries alike.left_holds
        (fun actual mem => (hold actual mem).mono growsTo) run_eq
      exact ⟨refersTo_of_applied (alike.symm.refersTo (carries.refersTo declared_eq)) run_eq,
        continues'.fixes (.inl (by simp [declared_eq]))⟩

/-- The types of all symbols are retraced, provided that owners are data types if they are
reconstructed again. -/
theorem retraceable_of_declares (declares : Declares resolve expand) {again : Prop} {symbol : Symbol}
    (owned : again → ∀ owner ∈ symbol.owners, owner.IsDataLeaf) :
    Retraceable resolve (namedWith resolve expand) (sortWith resolve) again symbol := by
  have names ⦃heap : Heap⦄ ⦃world : World⦄ (carries : heap.Carries world) (name : String)
      (actuals : List Ty) (hold : ∀ actual ∈ actuals, heap.Holds actual) :
      Retraces resolve heap world (namedWith resolve expand name actuals)
        (fun latest second => ∃ actuals', second = namedWith resolve expand name actuals' ∧
          latest.AlikeAll actuals actuals') Heap.Alike :=
    namedWith_retraces declares carries hold
  have sorts ⦃heap : Heap⦄ ⦃world : World⦄ (carries : heap.Carries world) (name : String) :
      Retraces resolve heap world (sortWith resolve name)
        (fun _ second => second = sortWith resolve name) fun _ _ _ => True :=
    sortWith_retraces carries name
  -- Without a second run nothing is required of owners.
  have once (symbol : Symbol) :
      Retraceable resolve (namedWith resolve expand) (sortWith resolve) False symbol :=
    typeWith_retraceable names sorts False.elim False.elim
  refine typeWith_retraceable names sorts
    (fun _ heap world carries owner type last leaf run_eq => ?_) owned
  obtain ⟨name, parameters, leaf_eq⟩ := leaf
  rw [typeWith_dataLeaf leaf_eq] at run_eq
  obtain ⟨actuals, after, actuals_eq, run_eq⟩ := Building.exists_of_run_bind run_eq
  obtain ⟨later, -, carries, -, alike, -⟩ :=
    typesWith_retraces carries (fun parameter _ => once parameter) actuals_eq
  exact ⟨name, namedWith_fixes declares carries (Heap.alikeAll_iff.mp alike).1 run_eq⟩

end Named

section Declarations

variable (continues : before.Continues resolve world)

include continues

/-- What is declared under a name which was not fixed lies in the heap and equals what is declared in
the end. -/
theorem carries_declared (free : ¬before.Fixes resolve name) (carries : heap.Carries world)
    {type : Ty} (holds : heap.Holds type) (refersTo : type.RefersTo name) {registry : Registry}
    (declare_eq : world.registry.declare world.store name type = .ok registry) :
    heap.Carries { world with registry } ∧ before.Continues resolve { world with registry } ∧
      ∃ declared, registry.lookup? name = some declared ∧ heap.Alike declared type ∧
        (declared = type ∨ world.registry.lookup? name = some declared) := by
  obtain ⟨-, rfl⟩ | ⟨⟨existing, lookup_eq, equal⟩, rfl⟩ := Registry.declare_inv declare_eq
  · refine ⟨carries.declare holds refersTo, continues.declare free type, type, ?_, .refl holds,
      .inl rfl⟩
    rw [Registry.lookup?_insert, if_pos rfl]
  · exact ⟨carries, continues, existing, lookup_eq,
      ⟨carries.holds lookup_eq, holds, carries.store_eq ▸ equal⟩, .inr lookup_eq⟩

theorem declareConstructor_retains {constructor : Constructor Ty}
    (free : ¬before.Fixes resolve constructor.owner.name) (carries : heap.Carries world)
    (known : heap.Known (.constructor constructor)) :
    Retains resolve before heap (Building.register (·.declareConstructor · constructor)) world
      fun _ _ _ => True := by
  intro _ after run_eq
  rw [Building.run_register] at run_eq
  split at run_eq
  · next registry declare_eq =>
    cases run_eq
    have owner_holds := (Heap.holds_dataRef constructor.owner).mpr (Heap.known_owner known)
    obtain ⟨declared, _, owner_eq, -, declared_eq⟩ := Registry.declareConstructor_inv declare_eq
    obtain ⟨carries, continues, -⟩ := carries_declared continues free carries owner_holds rfl owner_eq
    obtain ⟨-, rfl⟩ | ⟨-, rfl⟩ := declared_eq
    · exact ⟨heap, .refl heap, carries, continues, trivial⟩
    · exact ⟨heap, .refl heap, carries.declareConstructor known,
        continues.declareConstructors free _, trivial⟩
  · cases run_eq

theorem declareConstructors_retains {fieldsOf : List Symbol → Building (List (Field Ty))}
    (fields_retain : ∀ ⦃heap : Heap⦄ ⦃world : World⦄, heap.Carries world →
      before.Continues resolve world → ∀ symbols, Retains resolve before heap (fieldsOf symbols) world
        fun later _ fields => ∀ field ∈ fields, later.Holds field.type)
    {owner : DataRef Ty} (free : ¬before.Fixes resolve owner.name) (carries : heap.Carries world)
    (known : heap.Known (.dataRef owner)) (productions : List Production) :
    Retains resolve before heap (declareConstructors fieldsOf owner productions) world
      fun _ _ _ => True := by
  induction productions generalizing heap world with
  | nil => exact retains_pure carries continues trivial
  | cons production productions ih =>
    rw [declareConstructors]
    split
    · next name name_eq =>
      refine (fields_retain carries continues production.symbols).bind
        fun fields later after _ growsTo carries continues hold => ?_
      obtain ⟨wider, growsTo', wider_carries, constructor_known⟩ :=
        carries.exists_makeConstructor name (growsTo.known known) hold production.attributes
      refine Building.retains_make_bind (Making.run_newConstructor ..) growsTo' ?_
      refine (declareConstructor_retains (continues.of_store _) free wider_carries
        constructor_known).bind fun _ _ _ _ growsTo'' carries continues _ => ?_
      exact ih continues carries (growsTo''.known (growsTo'.known (growsTo.known known)))
    · exact ih continues carries known

theorem declareData_retains {fieldsOf : List Symbol → Building (List (Field Ty))}
    (fields_retain : ∀ ⦃heap : Heap⦄ ⦃world : World⦄, heap.Carries world →
      before.Continues resolve world → ∀ symbols, Retains resolve before heap (fieldsOf symbols) world
        fun later _ fields => ∀ field ∈ fields, later.Holds field.type)
    (fields_insert : ∀ symbols, (fieldsOf symbols).InsertsOnce) (free : ¬before.Fixes resolve name)
    (carries : heap.Carries world) {formals : List Ty}
    (formals_hold : ∀ formal ∈ formals, heap.Holds formal) (alternatives : OrderedSet Production) :
    Retains resolve before heap (declareData fieldsOf name formals alternatives) world
      fun later after type => ∃ declared, after.registry.lookup? name = some declared ∧
        later.Alike type declared := by
  obtain ⟨wider, growsTo, wider_carries, known⟩ := carries.exists_makeData formals_hold name
  unfold declareData
  refine Building.retains_make_bind (Making.run_newData ..) growsTo ?_
  refine Building.retains_register_bind fun registry declare_eq => ?_
  obtain ⟨carries, continues, declared, declared_eq, alike, -⟩ := carries_declared
    (continues.of_store _) free wider_carries ((Heap.holds_dataRef _).mpr known) rfl declare_eq
  refine (declareConstructors_retains continues fields_retain free carries known
    alternatives.toList).bind fun _ later after run_eq growsTo carries continues _ =>
      retains_pure carries continues ⟨declared, ?_, alike.symm.mono growsTo⟩
  exact (declareConstructors_insertsOnce fields_insert _ _).lookup?_eq run_eq declared_eq

/-- The body of an alias is filled in after the alias has been declared.  The heap grows from before
the alias was made, since its slot was empty until then. -/
theorem declareAlias_retains {typeOf : Symbol → Building Ty}
    (type_retains : ∀ ⦃heap : Heap⦄ ⦃world : World⦄, heap.Carries world → ∀ symbol,
      Retains resolve world heap (typeOf symbol) world fun later _ type => later.Holds type)
    (free : ¬before.Fixes resolve name) (carries : heap.Carries world) {formals : List Ty}
    (formals_hold : ∀ formal ∈ formals, heap.Holds formal)
    (fills : ∀ existing, world.registry.lookup? name = some existing → world.store.Fills existing)
    (alternatives : OrderedSet Production) :
    Retains resolve before heap (declareAlias typeOf name formals alternatives) world
      fun later after type => ∃ declared, after.registry.lookup? name = some declared ∧
        later.Alike type declared := by
  obtain ⟨pending, growsTo, pending_carries, known⟩ := carries.exists_makeAlias formals_hold name
  have body_retains ⦃heap : Heap⦄ ⦃world : World⦄ (carries : heap.Carries world) :
      Retains resolve world heap (bodyType typeOf alternatives) world
        fun later _ type => later.Holds type := by
    unfold bodyType
    split
    · exact type_retains carries _
    · exact retains_pure carries (.refl world) (Heap.holds_prim .value)
  have fresh : heap.store.slots.size ≤ world.store.slots.size := by rw [carries.store_eq]
  rw [declareAlias_eq]
  intro type last run_eq
  obtain ⟨reference, _, made_eq, run_eq⟩ := Building.exists_of_run_bind run_eq
  rw [Building.run_make, Making.run_newAlias] at made_eq
  cases made_eq
  obtain ⟨_, opened, register_eq, run_eq⟩ := Building.exists_of_run_bind run_eq
  rw [Building.run_register] at register_eq
  split at register_eq
  · next registry declare_eq =>
    cases register_eq
    obtain ⟨carries, continues, existing, lookup_eq, alike, new | old⟩ := carries_declared
      (continues.of_store _) free pending_carries ((Heap.holds_aliasRef _).mpr known) rfl declare_eq
    · subst new
      obtain ⟨body, filling, body_eq, run_eq⟩ := Building.exists_of_run_bind run_eq
      obtain ⟨later, growsTo', carries', continues', body_holds⟩ := body_retains carries body_eq
      obtain ⟨_, _, fill_eq, run_eq⟩ := Building.exists_of_run_bind run_eq
      rw [run_fillSlot] at fill_eq
      split at fill_eq
      · next store slot_eq =>
        cases fill_eq
        cases run_eq
        rw [← carries'.store_eq] at slot_eq
        obtain ⟨filled, filled_eq, known_eq, -⟩ := later.exists_fill slot_eq body_holds
        have fixed : registry.lookup? name ≠ none := by simp [lookup_eq]
        have filled_known : filled.Known _ := known_eq ▸ growsTo'.known known
        refine ⟨filled, ⟨fun known => known_eq ▸ growsTo'.known (growsTo.known known), ?_⟩,
          filled_eq ▸ carries'.of_known_eq known_eq, (continues.trans continues').of_store _, _,
          (continues'.lookup?_eq (.inl fixed)).trans lookup_eq,
          .refl ((Heap.holds_aliasRef _).mpr filled_known)⟩
        rw [filled_eq]
        exact (growsTo.grows.trans growsTo'.grows).fill? fresh slot_eq
      · cases fill_eq
    · have equal := alike.equal
      rw [pending_carries.store_eq] at equal
      exact absurd equal (same_newAlias_ne_true (fills existing old) name formals)
  · cases register_eq

end Declarations

/-- Every alias which has been declared meanwhile has its body. -/
theorem fills_of_typesWith {depth : Nat} {symbols : List Symbol} {types : List Ty} {after : World}
    (run_eq : (typesWith (namedWith resolve (expandWithin resolve depth)) (sortWith resolve)
      symbols).run.run world = (.ok types, after)) (undeclared : world.registry.lookup? name = none)
    {existing : Ty} (lookup_eq : after.registry.lookup? name = some existing) :
    after.store.Fills existing := by
  have keeps : Keeps resolve (fun _ => True) (Symbol.mentionsOfAll symbols)
      (typesWith (namedWith resolve (expandWithin resolve depth)) (sortWith resolve) symbols) world :=
    typesWith_keeps fun symbol _ world =>
      (typeWithin_keeps depth symbol world).mono fun _ _ => trivial
  obtain ⟨advances, -⟩ := (Building.meets_iff_of_run_eq_ok run_eq).mp keeps
  have started : Complete resolve (fun other => world.registry.lookup? other ≠ none) world :=
    fun _ _ declared open_ => absurd (by simp [declared]) open_
  exact (advances.complete started lookup_eq (not_not.mpr undeclared)).1

/-- Every expansion leaves its name declared as a type which equals the result. -/
theorem expandWithin_declares (depth : Nat) : Declares resolve (expandWithin resolve depth) := by
  induction depth with
  | zero =>
    rintro _ _ _ _ - - - _ _ ⟨⟩
  | succ depth ih =>
    intro heap world name production carries undeclared first_eq
    have free : ¬world.Fixes resolve name := by simp [World.Fixes, undeclared, first_eq]
    have retraceable (symbol : Symbol) : Retraceable resolve
        (namedWith resolve (expandWithin resolve depth)) (sortWith resolve) False symbol :=
      retraceable_of_declares ih False.elim
    have type_retains ⦃heap : Heap⦄ ⦃world : World⦄ (carries : heap.Carries world) (symbol : Symbol) :
        Retains resolve world heap (typeWith (namedWith resolve (expandWithin resolve depth))
          (sortWith resolve) symbol) world fun later _ type => later.Holds type :=
      ((retraceable symbol carries).retains (.refl world)).mono fun _ _ _ _ kept =>
        kept.2.left_holds
    have fields_retain ⦃heap : Heap⦄ ⦃after : World⦄ (carries : heap.Carries after)
        (continues : world.Continues resolve after) (symbols : List Symbol) :
        Retains resolve world heap (fieldsWith (namedWith resolve (expandWithin resolve depth))
          (sortWith resolve) symbols) after
          fun later _ fields => ∀ field ∈ fields, later.Holds field.type :=
      ((fieldsWith_retraces carries fun symbol _ => retraceable symbol).retains continues).mono
        fun _ _ _ _ kept => (Heap.alikeFields_iff.mp kept.2).1
    have fields_insert (symbols : List Symbol) : (fieldsWith (namedWith resolve
        (expandWithin resolve depth)) (sortWith resolve) symbols).InsertsOnce :=
      fieldsWith_closed closed_insertsOnce fun symbol _ => typeWithin_insertsOnce depth symbol
    have formals_retain (symbols : List Symbol) :=
      (typesWith_retraces carries fun symbol (_ : symbol ∈ symbols) => retraceable symbol).retains
        (.refl world)
    unfold expandWithin
    split
    · exact (formals_retain _).bind fun formals later after run_eq _ carries continues kept =>
        declareAlias_retains continues type_retains free carries (Heap.alikeAll_iff.mp kept.2).1
          (fun _ => fills_of_typesWith run_eq undeclared) (resolve name)
    · exact (formals_retain _).bind fun formals later after _ _ carries continues kept =>
        declareData_retains continues fields_retain fields_insert free carries
          (Heap.alikeAll_iff.mp kept.2).1 (resolve name)
    · exact declareData_retains (.refl world) fields_retain fields_insert free carries
        (List.forall_mem_nil _) (resolve name)

/-- A symbol in which the owners of constructors are data types is reconstructed again, into the
registry which the first reconstruction leaves, to an equal type, and nothing changes: neither what is
declared nor the constructors and the rules of any name. -/
theorem reconstruct_again {reified : Reified} {type : Ty} {after : World}
    (carries : heap.Carries world) (owned : ∀ owner ∈ reified.symbol.owners, owner.IsDataLeaf)
    (run_eq : reified.reconstruct.run.run world = (.ok type, after)) :
    ∃ again last, reified.reconstruct.run.run after = (.ok again, last) ∧
      last.store.same type again = some true ∧ last.registry = after.registry ∧
      ∀ name, last.registry.constructorsOf last.store name =
        after.registry.constructorsOf after.store name := by
  have retraceable : Retraceable reified.definitions.alternativesOf
      (namedWith reified.definitions.alternativesOf
        (expandWithin reified.definitions.alternativesOf (maxDepth reified.definitions)))
      (sortWith reified.definitions.alternativesOf) True reified.symbol :=
    retraceable_of_declares (expandWithin_declares _) fun _ => owned
  obtain ⟨later, -, later_carries, -, -, retraces⟩ := retraceable carries run_eq
  obtain ⟨again, wider, again_eq, growsTo, alike⟩ :=
    retraces (.refl later) later_carries (.refl after) ⟨trivial, rfl⟩
  refine ⟨again, _, again_eq, alike.equal, rfl, fun name => ?_⟩
  rw [← later_carries.store_eq]
  exact later_carries.bears.constructorsOf_eq growsTo.grows name

end Reconstruct

namespace Reconstruct.grove

/-- Trees of values whose leaves are an opaque data type. -/
def definitions : Definitions where
  entries := [
    ("Tree", {
      subject := .dataRef "Tree" [.parameter "T" (.prim .value)]
      alternatives := ⟨[
        { subject := .dataRef "Tree" [.parameter "T" (.prim .value)]
          name := some "node"
          symbols := [.dataRef "Leaf" [], .label "value" (.parameter "T" (.prim .value)),
            .list (.dataRef "Tree" [.parameter "T" (.prim .value)])] }],
        List.pairwise_singleton _ _⟩ })]
  increasing := List.pairwise_singleton _ _

/-- A tree of numbers together with a leaf. -/
def symbol : Symbol :=
  .tuple [.dataRef "Tree" [.prim .int], .constructor (.dataRef "Leaf" []) "leaf" [.sort "Space"]]

def owner : DataRef Ty := ⟨0, "Leaf", []⟩

def leaf : Constructor Ty := ⟨1, owner, "leaf", [⟨none, .sort "Space"⟩], ∅⟩

/-- A world in which leaves are declared. -/
def start : World where
  store := ⟨2, #[]⟩
  registry := { own := {
    declarations := ⟨[("Leaf", .dataRef owner)], List.pairwise_singleton _ _⟩
    constructors := ⟨[("Leaf", [leaf])], List.pairwise_singleton _ _⟩ } }

def references : Heap := .of start.store [.dataRef owner, .constructor leaf]
  (by simp [Ty.isSameObject]) (by simp [Store.HasMade, start, owner, leaf])
  (by simp [Ty.references, Store.behind, owner, leaf, Ty.referencesOfAll, Ty.referencesOfFields])

theorem lookup?_start {name : String} {type : Ty} (lookup_eq : start.registry.lookup? name = some type) :
    name = "Leaf" ∧ type = .dataRef owner := by
  obtain ⟨rfl, rfl⟩ : name = "Leaf" ∧ .dataRef owner = type := by
    simpa [Registry.lookup?, Registry.layers, start, Table.get?, Table.lookup_cons] using lookup_eq
  exact ⟨rfl, rfl⟩

theorem carries : references.Carries start where
  store_eq := rfl
  holds name type lookup_eq := by
    obtain ⟨rfl, rfl⟩ := lookup?_start lookup_eq
    exact (Heap.holds_dataRef owner).mpr (List.mem_cons_self ..)
  refersTo name type lookup_eq := by
    obtain ⟨rfl, rfl⟩ := lookup?_start lookup_eq
    rfl
  constructors layer mem name constructor constructor_mem := by
    obtain rfl := List.mem_singleton.mp mem
    have constructor_eq : name = "Leaf" ∧ constructor = leaf := by
      simp only [Layer.constructorsOf, start, Table.get?, Table.lookup_cons] at constructor_mem
      split at constructor_mem <;> simp_all
    rw [constructor_eq.2]
    exact List.mem_cons_of_mem _ (List.mem_cons_self ..)

/-- What is reconstructed. -/
def outcome : Except Failure Ty × World :=
  (Reified.reconstruct ⟨symbol, definitions⟩).run.run start

theorem reconstruct_eq : ∃ type, (Reified.reconstruct ⟨symbol, definitions⟩).run.run start =
    (.ok type, outcome.2) := by
  have succeeds : outcome.1.toBool = true := by decide +kernel
  rcases outcome_eq : outcome with ⟨_ | type, world⟩
  · rw [outcome_eq] at succeeds
    cases succeeds
  · exact ⟨type, outcome_eq⟩

theorem owned : ∀ owner ∈ symbol.owners, owner.IsDataLeaf := by
  rintro owner mem
  obtain rfl := List.mem_singleton.mp mem
  exact ⟨"Leaf", [], rfl⟩

theorem tree_again : ∃ type again last,
    (Reified.reconstruct ⟨symbol, definitions⟩).run.run start = (.ok type, outcome.2) ∧
    (Reified.reconstruct ⟨symbol, definitions⟩).run.run outcome.2 = (.ok again, last) ∧
    last.store.same type again = some true ∧ last.registry = outcome.2.registry := by
  obtain ⟨type, run_eq⟩ := reconstruct_eq
  obtain ⟨again, last, again_eq, equal, registry_eq, -⟩ := reconstruct_again carries owned run_eq
  exact ⟨type, again, last, run_eq, again_eq, equal, registry_eq⟩

end Reconstruct.grove

end Reification
