import Mathlib.Data.Nat.Basic
import Mathlib.Order.Basic
import Mathlib.Tactic.Tauto
import Reification.Proofs.Building
import Reification.Proofs.Equality

/-!
# Growth of the store and of the registry

Making references leaves the slots alone which there are, and a world in which names are declared
keeps the declarations which it has.
-/

namespace Reification

/-- A store after some references have been made: every slot which there was is as it was. -/
structure Store.Grows (before after : Store) : Prop where
  made_le : before.made ≤ after.made
  size_le : before.slots.size ≤ after.slots.size
  slot_eq : ∀ slot < before.slots.size, after.slots[slot]? = before.slots[slot]?

namespace Store.Grows

variable {store before middle after : Store}

theorem refl (store : Store) : store.Grows store := ⟨le_rfl, le_rfl, fun _ _ => rfl⟩

theorem trans (first : before.Grows middle) (second : middle.Grows after) :
    before.Grows after where
  made_le := first.made_le.trans second.made_le
  size_le := first.size_le.trans second.size_le
  slot_eq slot below :=
    (second.slot_eq slot (below.trans_le first.size_le)).trans (first.slot_eq slot below)

theorem makeData (name : String) (parameters : List Ty) :
    store.Grows (store.makeData name parameters).2 :=
  ⟨Nat.le_succ _, le_rfl, fun _ _ => rfl⟩

theorem makeConstructor (owner : DataRef Ty) (name : String) (fields : List (Field Ty))
    (attributes : OrderedSet Attribute) :
    store.Grows (store.makeConstructor owner name fields attributes).2 :=
  ⟨Nat.le_succ _, le_rfl, fun _ _ => rfl⟩

theorem makeAlias (name : String) (parameters : List Ty) (body : Option Ty) :
    store.Grows (store.makeAlias name parameters body).2 where
  made_le := le_rfl
  size_le := by simp [Store.makeAlias]
  slot_eq slot below := by simp [Store.makeAlias, Array.getElem?_push, below.ne]

/-- Filling a slot which there was not before leaves the others alone. -/
theorem fill? {reference : AliasRef Ty} {body : Ty} (grows : before.Grows middle)
    (fresh : before.slots.size ≤ reference.object)
    (fill_eq : middle.fill? reference body = some after) : before.Grows after := by
  simp only [Store.fill?] at fill_eq
  split at fill_eq
  · obtain rfl := Option.some.inj fill_eq
    refine ⟨grows.made_le, by simpa using grows.size_le, fun slot below => ?_⟩
    rw [Array.getElem?_setIfInBounds_ne (by omega)]
    exact grows.slot_eq slot below
  · simp at fill_eq

theorem body?_eq (grows : before.Grows after) {reference : AliasRef Ty}
    (below : reference.object < before.slots.size) :
    after.body? reference = before.body? reference := by
  rw [body?, body?, grows.slot_eq _ below]

end Store.Grows

/-- Whether a type is no alias or one whose body is known. -/
def Store.Fills (store : Store) : Ty → Prop
  | .aliasRef reference => store.body? reference ≠ none
  | _ => True

theorem Store.Grows.fills {before after : Store} (grows : before.Grows after) {type : Ty}
    (fills : before.Fills type) : after.Fills type := by
  cases type with
  | aliasRef reference =>
    obtain ⟨body, body_eq⟩ := Option.ne_none_iff_exists'.mp fills
    simp [Store.Fills, grows.body?_eq (Store.lt_size_of_body? body_eq), body_eq]
  | _ => trivial

theorem Store.fills_of_fill? {store filled : Store} {reference : AliasRef Ty} {body : Ty}
    (fill_eq : store.fill? reference body = some filled) {type : Ty} (fills : store.Fills type) :
    filled.Fills type := by
  cases type with
  | aliasRef other =>
    simp only [Store.Fills, Store.body?_of_fill? fill_eq] at fills ⊢
    split
    · simp
    · exact fills
  | _ => trivial

namespace Making

/-- Whether a computation, as far as it ends, only makes references. -/
def Keeps {α : Type} (making : Making α) : Prop :=
  ∀ ⦃before result after⦄, making.run before = some (result, after) → before.Grows after

variable {α β : Type} {store : Store}

theorem run_newData (name : String) (parameters : List Ty) :
    (newData name parameters).run store = some (store.makeData name parameters) := rfl

theorem run_newAlias (name : String) (parameters : List Ty) (body : Option Ty) :
    (newAlias name parameters body).run store = some (store.makeAlias name parameters body) := rfl

theorem run_newConstructor (owner : DataRef Ty) (name : String) (fields : List (Field Ty))
    (attributes : OrderedSet Attribute) : (newConstructor owner name fields attributes).run store =
      some (store.makeConstructor owner name fields attributes) := rfl

theorem keeps_pure (result : α) : (pure result : Making α).Keeps := by
  rintro before _ _ ⟨⟩
  exact .refl _

theorem keeps_failure : (failure : Making α).Keeps := by
  rintro _ _ _ ⟨⟩

theorem Keeps.bind {making : Making α} {next : α → Making β} (first : making.Keeps)
    (second : ∀ result, (next result).Keeps) : (making >>= next).Keeps := by
  intro before result after run_eq
  rw [StateT.run_bind] at run_eq
  obtain ⟨⟨middle, middle_store⟩, making_eq, next_eq⟩ := Option.bind_eq_some_iff.mp run_eq
  exact (first making_eq).trans (second middle next_eq)

theorem Keeps.map {making : Making α} (keeps : making.Keeps) (change : α → β) :
    (change <$> making).Keeps := by
  rw [map_eq_pure_bind]
  exact keeps.bind fun _ => keeps_pure _

theorem keeps_newData (name : String) (parameters : List Ty) : (newData name parameters).Keeps := by
  rintro before _ _ ⟨⟩
  exact .makeData name parameters

theorem keeps_newAlias (name : String) (parameters : List Ty) (body : Option Ty) :
    (newAlias name parameters body).Keeps := by
  rintro before _ _ ⟨⟩
  exact .makeAlias name parameters body

theorem keeps_newConstructor (owner : DataRef Ty) (name : String) (fields : List (Field Ty))
    (attributes : OrderedSet Attribute) : (newConstructor owner name fields attributes).Keeps := by
  rintro before _ _ ⟨⟩
  exact .makeConstructor owner name fields attributes

end Making

namespace Ty

variable {bindings : Bindings} {body : AliasRef Ty → Making (Option Ty)}

theorem instantiateAllWith_keeps {types : List Ty}
    (keeps : ∀ type ∈ types, (type.instantiateWith bindings body).Keeps) :
    (instantiateAllWith bindings body types).Keeps := by
  induction types with
  | nil => exact Making.keeps_pure _
  | cons type types ih =>
    obtain ⟨head_keeps, tail_keeps⟩ := List.forall_mem_cons.mp keeps
    exact head_keeps.bind fun _ => (ih tail_keeps).bind fun _ => Making.keeps_pure _

theorem instantiateFieldsWith_keeps {fields : List (Field Ty)}
    (keeps : ∀ field ∈ fields, (field.type.instantiateWith bindings body).Keeps) :
    (instantiateFieldsWith bindings body fields).Keeps := by
  induction fields with
  | nil => exact Making.keeps_pure _
  | cons field fields ih =>
    obtain ⟨head_keeps, tail_keeps⟩ := List.forall_mem_cons.mp keeps
    exact head_keeps.bind fun _ => (ih tail_keeps).bind fun _ => Making.keeps_pure _

theorem instantiateWith_keeps (keeps : ∀ reference, (body reference).Keeps) (type : Ty) :
    (type.instantiateWith bindings body).Keeps := by
  induction type using Ty.induction with
  | prim | sort | parameter => exact Making.keeps_pure _
  | list _ ih | set _ ih | reified _ ih => exact ih.bind fun _ => Making.keeps_pure _
  | map _ _ ih_key ih_value =>
    exact ih_key.bind fun _ => ih_value.bind fun _ => Making.keeps_pure _
  | tuple _ ih => exact (instantiateFieldsWith_keeps ih).bind fun _ => Making.keeps_pure _
  | func _ _ ih ih_arguments =>
    exact ih.bind fun _ => (instantiateFieldsWith_keeps ih_arguments).bind fun _ =>
      Making.keeps_pure _
  | dataRef _ _ _ ih =>
    rw [instantiateWith]
    split
    · exact Making.keeps_pure _
    · exact (instantiateAllWith_keeps ih).bind fun _ => (Making.keeps_newData _ _).bind fun _ =>
        Making.keeps_pure _
  | aliasRef _ _ _ ih =>
    rw [instantiateWith]
    split
    · exact Making.keeps_pure _
    · exact (instantiateAllWith_keeps ih).bind fun _ => (keeps _).bind fun _ =>
        (Making.keeps_newAlias _ _ _).bind fun _ => Making.keeps_pure _
  | constructor _ _ _ _ _ _ _ ih ih_fields =>
    rw [instantiateWith]
    split
    · exact Making.keeps_pure _
    · exact (instantiateAllWith_keeps ih).bind fun _ => (Making.keeps_newData _ _).bind fun _ =>
        (instantiateFieldsWith_keeps ih_fields).bind fun _ =>
          (Making.keeps_newConstructor _ _ _ _).bind fun _ => Making.keeps_pure _

/-- The instantiated body of an alias, through at most `depth` nested bodies. -/
def instantiatedBody (bindings : Bindings) : Nat → AliasRef Ty → Making (Option Ty)
  | 0, _ => failure
  | depth + 1, reference => do
    match (← get).body? reference with
    | some body => some <$> instantiateWithin bindings depth body
    | none => pure none

theorem instantiateWithin_eq (bindings : Bindings) (depth : Nat) :
    instantiateWithin bindings depth = instantiateWith bindings (instantiatedBody bindings depth) := by
  cases depth <;> rfl

theorem instantiatedBody_keeps (depth : Nat) (reference : AliasRef Ty) :
    (instantiatedBody bindings depth reference).Keeps := by
  induction depth generalizing reference with
  | zero => exact Making.keeps_failure
  | succ depth ih =>
    intro before result after run_eq
    rw [instantiatedBody, StateT.run_bind] at run_eq
    obtain ⟨_, ⟨⟩, next_eq⟩ := Option.bind_eq_some_iff.mp run_eq
    rcases body_eq : before.body? reference with _ | body
    · simp only [body_eq] at next_eq
      exact Making.keeps_pure _ next_eq
    · simp only [body_eq, instantiateWithin_eq] at next_eq
      exact (instantiateWith_keeps ih body).map some next_eq

theorem instantiateWithin_keeps (depth : Nat) (type : Ty) :
    (instantiateWithin bindings depth type).Keeps := by
  rw [instantiateWithin_eq]
  exact instantiateWith_keeps (instantiatedBody_keeps depth) type

/-- Instantiating a type makes references and changes nothing else. -/
theorem instantiate_keeps (type : Ty) : (type.instantiate bindings).Keeps := by
  intro before result after run_eq
  rw [instantiate, StateT.run_bind] at run_eq
  obtain ⟨_, ⟨⟩, next_eq⟩ := Option.bind_eq_some_iff.mp run_eq
  exact instantiateWithin_keeps _ type next_eq

end Ty

namespace Registry

variable {registry after : Registry} {store : Store} {name : String} {type : Ty}

theorem lookup?_insert (other : String) :
    lookup? { registry with
      own := { registry.own with
        declarations := registry.own.declarations.insert name type } } other =
      if other = name then some type else registry.lookup? other := by
  simp only [lookup?, layers, List.findSome?_cons, Table.get?_insert]
  by_cases same : other = name
  · simp [same]
  · simp [same]

theorem lookupData?_eq_some_iff {reference : DataRef Ty} :
    registry.lookupData? name = some reference ↔
      registry.lookup? name = some (.dataRef reference) := by
  unfold lookupData?
  split <;> simp_all

theorem lookupAlias?_eq_some_iff {reference : AliasRef Ty} :
    registry.lookupAlias? name = some reference ↔
      registry.lookup? name = some (.aliasRef reference) := by
  unfold lookupAlias?
  split <;> simp_all

/-- A name which is not declared can be declared as any type. -/
theorem declare_of_undeclared (undeclared : registry.lookup? name = none) :
    registry.declare store name type = .ok { registry with
      own := { registry.own with
        declarations := registry.own.declarations.insert name type } } := by
  simp only [declare, undeclared]
  rfl

/-- Declaring a name again compares the types. -/
theorem declare_of_declared {existing : Ty} (declared : registry.lookup? name = some existing) :
    registry.declare store name type = match store.same existing type with
      | some true => .ok registry
      | some false => .error (.error (.conflicting name existing.display type.display))
      | none => .error .endless := by
  simp only [declare, declared]
  rcases store.same existing type with _ | _ | _ <;> rfl

/-- Declaring the very type which is declared changes nothing. -/
theorem declare_self (declared : registry.lookup? name = some type) :
    registry.declare store name type = .ok registry := by
  rw [declare_of_declared declared, Store.same_self]

/-- A type which has been declared is new, or it equals the one which is declared already. -/
theorem declare_inv (declare_eq : registry.declare store name type = .ok after) :
    registry.lookup? name = none ∧ after = { registry with
      own := { registry.own with
        declarations := registry.own.declarations.insert name type } } ∨
    (∃ existing, registry.lookup? name = some existing ∧ store.same existing type = some true) ∧
      after = registry := by
  rcases lookup_eq : registry.lookup? name with _ | existing
  · rw [declare_of_undeclared lookup_eq] at declare_eq
    exact .inl ⟨rfl, (Except.ok.inj declare_eq).symm⟩
  · rw [declare_of_declared lookup_eq] at declare_eq
    split at declare_eq
    · next equal => exact .inr ⟨⟨existing, rfl, equal⟩, (Except.ok.inj declare_eq).symm⟩
    · cases declare_eq
    · cases declare_eq

/-- A constructor is declared with its data type. -/
theorem declareConstructor_eq (constructor : Constructor Ty) :
    registry.declareConstructor store constructor =
      match registry.declare store constructor.owner.name (.dataRef constructor.owner) with
      | .error failure => .error failure
      | .ok declared =>
        match declared.constructorsOf store constructor.owner.name with
        | none => .error .endless
        | some known =>
          match isKnown store known constructor with
          | none => .error .endless
          | some true => .ok declared
          | some false => .ok { declared with
              own := { declared.own with
                constructors := declared.own.constructors.insert constructor.owner.name
                  (declared.own.constructorsOf constructor.owner.name ++ [constructor]) } } := by
  simp only [declareConstructor]
  rcases registry.declare store constructor.owner.name (.dataRef constructor.owner) with _ | declared
  · rfl
  · simp only [bind, Except.bind]
    rcases declared.constructorsOf store constructor.owner.name with _ | known
    · rfl
    · simp only [Failure.orEndless]
      rcases isKnown store known constructor with _ | _ | _ <;> rfl

/-- A constructor which has been declared is new, or it equals one of its data type, which has been
declared before. -/
theorem declareConstructor_inv {constructor : Constructor Ty}
    (declare_eq : registry.declareConstructor store constructor = .ok after) :
    ∃ declared known,
      registry.declare store constructor.owner.name (.dataRef constructor.owner) = .ok declared ∧
      declared.constructorsOf store constructor.owner.name = some known ∧
      (isKnown store known constructor = some true ∧ after = declared ∨
        isKnown store known constructor = some false ∧ after = { declared with
          own := { declared.own with
            constructors := declared.own.constructors.insert constructor.owner.name
              (declared.own.constructorsOf constructor.owner.name ++ [constructor]) } }) := by
  rw [declareConstructor_eq] at declare_eq
  split at declare_eq
  · cases declare_eq
  · next declared declared_eq =>
    split at declare_eq
    · cases declare_eq
    · next known known_eq =>
      refine ⟨declared, known, declared_eq, known_eq, ?_⟩
      split at declare_eq
      · cases declare_eq
      · next known_eq => exact .inl ⟨known_eq, (Except.ok.inj declare_eq).symm⟩
      · next new_eq => exact .inr ⟨new_eq, (Except.ok.inj declare_eq).symm⟩

/-- A registry which inherits nothing has the constructors of its own layer. -/
theorem constructorsOf_of_inherited_eq (inherited_eq : registry.inherited = []) (store : Store)
    (name : String) :
    registry.constructorsOf store name = some (registry.own.constructorsOf name) := by
  simp [constructorsOf, inherited_eq]

/-- Asking whether a constructor is known ends if all comparisons do. -/
theorem isKnown_ne_none {known : List (Constructor Ty)} {constructor : Constructor Ty}
    (ends : ∀ other ∈ known, store.sameConstructor other constructor ≠ none) :
    isKnown store known constructor ≠ none := by
  induction known with
  | nil => exact nofun
  | cons first rest ih =>
    obtain ⟨head_ends, tail_ends⟩ := List.forall_mem_cons.mp ends
    rcases answer_eq : store.sameConstructor first constructor with _ | _ | _
    · exact absurd answer_eq head_ends
    · simpa [isKnown, List.anyM, answer_eq] using ih tail_ends
    · simp [isKnown, List.anyM, answer_eq]

/-- Adding a constructor to known ones adds no other one. -/
theorem subset_of_addUnknown {known added : List (Constructor Ty)} {constructor : Constructor Ty}
    (added_eq : addUnknown store known constructor = some added) :
    added ⊆ known ++ [constructor] := by
  obtain ⟨answer, -, added_eq⟩ := Option.bind_eq_some_iff.mp added_eq
  cases answer with
  | false => exact fun _ => Option.some.inj added_eq ▸ id
  | true => exact fun _ mem => List.mem_append_left _ (Option.some.inj added_eq ▸ mem)

/-- A constructor of a data type is one of some layer. -/
theorem mem_constructorsOf {constructors : List (Constructor Ty)} {constructor : Constructor Ty}
    (constructors_eq : registry.constructorsOf store name = some constructors)
    (mem : constructor ∈ constructors) :
    ∃ layer ∈ registry.layers, constructor ∈ layer.constructorsOf name := by
  have step {known others constructors : List (Constructor Ty)}
      (fold_eq : others.foldlM (addUnknown store) known = some constructors)
      (mem : constructor ∈ constructors) : constructor ∈ known ++ others := by
    induction others generalizing known with
    | nil =>
      obtain rfl := Option.some.inj fold_eq
      exact List.mem_append_left _ mem
    | cons first others ih =>
      obtain ⟨added, added_eq, rest_eq⟩ := Option.bind_eq_some_iff.mp
        (List.foldlM_cons.symm.trans fold_eq)
      rcases List.mem_append.mp (ih rest_eq) with mem | mem
      · simpa using List.mem_append_left others (subset_of_addUnknown added_eq mem)
      · exact List.mem_append_right _ (List.mem_cons_of_mem _ mem)
  rcases List.mem_append.mp (step constructors_eq mem) with mem | mem
  · exact ⟨registry.own, List.mem_cons_self .., mem⟩
  · obtain ⟨layer, layer_mem, mem⟩ := List.mem_flatMap.mp mem
    exact ⟨layer, List.mem_cons_of_mem _ layer_mem, mem⟩

end Registry

theorem Layer.constructorsOf_insert (layer : Layer) (name other : String)
    (constructors : List (Constructor Ty)) :
    Layer.constructorsOf { layer with
      constructors := layer.constructors.insert name constructors } other =
      if other = name then constructors else layer.constructorsOf other := by
  by_cases same : other = name
  · simp [constructorsOf, same]
  · simp [constructorsOf, same]

/-- A constructor which is added to those of a name leaves the others. -/
theorem Layer.mem_constructorsOf_append {layer : Layer} {name other : String}
    {added constructor : Constructor Ty} :
    constructor ∈ Layer.constructorsOf { layer with
      constructors := layer.constructors.insert name (layer.constructorsOf name ++ [added]) }
        other ↔
      constructor ∈ layer.constructorsOf other ∨ other = name ∧ constructor = added := by
  rw [constructorsOf_insert]
  by_cases same : other = name
  · subst same
    simp
  · simp [same]

namespace Definitions

theorem alternativesOf_addAlternatives (definitions : Definitions) (name other : String)
    (subject : Symbol) (alternatives : List Production) :
    (definitions.addAlternatives name subject alternatives).alternativesOf other =
      if other = name then (definitions.alternativesOf name).insertAll alternatives
      else definitions.alternativesOf other := by
  by_cases same : other = name
  · subst same
    simp only [alternativesOf, addAlternatives, entry, Table.get?_insert, if_pos]
    cases definitions.get? other <;> rfl
  · simp [alternativesOf, addAlternatives, same]

end Definitions

namespace Registry

theorem mem_rulesOf {registry : Registry} {name : String} {rule : Production} :
    rule ∈ registry.rulesOf name ↔
      ∃ layer ∈ registry.layers, rule ∈ layer.rules.alternativesOf name := by
  have fold_iff (layers : List Layer) (rules : OrderedSet Production) :
      rule ∈ layers.foldl (fun rules layer => rules ∪ layer.rules.alternativesOf name) rules ↔
        rule ∈ rules ∨ ∃ layer ∈ layers, rule ∈ layer.rules.alternativesOf name := by
    induction layers generalizing rules with
    | nil => simp
    | cons layer layers ih => simp [ih, or_assoc]
  rw [rulesOf, fold_iff]
  simp [layers]

/-- Adding rules to a nonterminal adds just these. -/
theorem mem_rulesOf_addRules {registry : Registry} {name other : String} {subject : Symbol}
    {rules : List Production} {rule : Production} :
    rule ∈ (registry.addRules name subject rules).rulesOf other ↔
      other = name ∧ rule ∈ rules ∨ rule ∈ registry.rulesOf other := by
  simp only [mem_rulesOf, layers, addRules, List.mem_cons, exists_eq_or_imp,
    Definitions.alternativesOf_addAlternatives]
  by_cases same : other = name
  · subst same
    simp only [if_pos, OrderedSet.mem_insertAll, true_and]
    tauto
  · simp [same]

end Registry

/-- A world in which more has been made and declared. -/
structure World.Extends (before after : World) : Prop where
  grows : before.store.Grows after.store
  lookup?_eq : ∀ ⦃name type⦄, before.registry.lookup? name = some type →
    after.registry.lookup? name = some type
  constructors_le : ∀ ⦃name constructor⦄, constructor ∈ before.registry.own.constructorsOf name →
    constructor ∈ after.registry.own.constructorsOf name
  rules_le : ∀ ⦃name rule⦄, rule ∈ before.registry.rulesOf name →
    rule ∈ after.registry.rulesOf name

namespace World.Extends

variable {before middle after : World}

theorem refl (world : World) : world.Extends world :=
  ⟨.refl _, fun _ _ => id, fun _ _ => id, fun _ _ => id⟩

theorem trans (first : before.Extends middle) (second : middle.Extends after) :
    before.Extends after where
  grows := first.grows.trans second.grows
  lookup?_eq _ _ declared := second.lookup?_eq (first.lookup?_eq declared)
  constructors_le _ _ mem := second.constructors_le (first.constructors_le mem)
  rules_le _ _ mem := second.rules_le (first.rules_le mem)

/-- What is declared stays declared. -/
theorem declared (extends_ : before.Extends after) {name : String}
    (declared : before.registry.lookup? name ≠ none) : after.registry.lookup? name ≠ none := by
  obtain ⟨type, lookup_eq⟩ := Option.ne_none_iff_exists'.mp declared
  simp [extends_.lookup?_eq lookup_eq]

theorem of_store {store : Store} (grows : before.store.Grows store) :
    before.Extends { before with store } :=
  ⟨grows, fun _ _ => id, fun _ _ => id, fun _ _ => id⟩

/-- A name may be declared which is not declared yet. -/
theorem declare {world : World} {name : String} {type : Ty}
    (undeclared : world.registry.lookup? name = none) :
    world.Extends { world with registry := { world.registry with
      own := { world.registry.own with
        declarations := world.registry.own.declarations.insert name type } } } where
  grows := .refl _
  lookup?_eq other existing declared := by
    have distinct : other ≠ name := by
      rintro rfl
      simp [undeclared] at declared
    simpa [Registry.lookup?_insert, distinct] using declared
  constructors_le _ _ := id
  rules_le _ _ := id

end World.Extends

end Reification
