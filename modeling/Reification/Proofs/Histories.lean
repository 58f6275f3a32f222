import Reification.Proofs.Sessions

/-!
# Histories of registries

A registry comes about by operations on it and by extending it with other registries, which have
come about in the same way, so that they may share ancestors.  Equal constructors are left out when
one is declared, against all which are visible then, and again when the constructors of a name are
read, against what has been added to the ancestors.  Together this gives a set of constructors for
each name, provided that filling the slots of aliases changes no comparison which has been made.
-/

namespace Reification

namespace Registry

/-! ### Reading the constructors of a name -/

/-- The constructors of a name in all layers. -/
def storedUnder (registry : Registry) (name : String) : List (Constructor Ty) :=
  registry.layers.flatMap (·.constructorsOf name)

section Reading

variable {store : Store} {known others constructors added : List (Constructor Ty)}
  {constructor : Constructor Ty}

/-- A constructor which is known equals one of the known ones. -/
theorem exists_of_isKnown (answer_eq : isKnown store known constructor = some true) :
    ∃ other ∈ known, store.sameConstructor other constructor = some true := by
  induction known with
  | nil => cases answer_eq
  | cons first known ih =>
    rcases first_eq : store.sameConstructor first constructor with _ | _ | _
    · simp [isKnown, first_eq] at answer_eq
    · have rest_eq : isKnown store known constructor = some true := by
        simpa [isKnown, first_eq] using answer_eq
      obtain ⟨other, mem, equal⟩ := ih rest_eq
      exact ⟨other, List.mem_cons_of_mem _ mem, equal⟩
    · exact ⟨first, List.mem_cons_self .., first_eq⟩

/-- A constructor is added just if it can be told apart from all known ones. -/
theorem addUnknown_inv (added_eq : addUnknown store known constructor = some added) :
    (added = known ∧ ∃ other ∈ known, store.sameConstructor other constructor = some true) ∨
      added = known ++ [constructor] ∧ ∀ other ∈ known, store.TellsApart other constructor := by
  obtain ⟨answer, answer_eq, added_eq⟩ := Option.bind_eq_some_iff.mp added_eq
  cases answer with
  | false => exact .inr ⟨(Option.some.inj added_eq).symm, isKnown_eq_false_iff.mp answer_eq⟩
  | true => exact .inl ⟨(Option.some.inj added_eq).symm, exists_of_isKnown answer_eq⟩

/-- Known constructors with others, of which those are left out which equal one before them. -/
structure Gathers (store : Store) (known others constructors : List (Constructor Ty)) : Prop where
  known_le : known ⊆ constructors
  le_append : constructors ⊆ known ++ others
  equal : ∀ other ∈ others, ∃ constructor ∈ constructors,
    store.sameConstructor constructor other = some true
  apart : known.Pairwise store.TellsApart → constructors.Pairwise store.TellsApart

theorem gathers_of_addUnknown (added_eq : addUnknown store known constructor = some added) :
    Gathers store known [constructor] added := by
  rcases addUnknown_inv added_eq with ⟨rfl, other, mem, equal⟩ | ⟨rfl, apart⟩
  · exact ⟨fun _ => id, List.subset_append_left _ _,
      List.forall_mem_singleton.mpr ⟨other, mem, equal⟩, id⟩
  · refine ⟨List.subset_append_left _ _, fun _ => id,
      List.forall_mem_singleton.mpr ⟨constructor, by simp, Store.same_self _⟩, fun known_apart => ?_⟩
    exact List.pairwise_append.mpr ⟨known_apart, List.pairwise_singleton _ _, fun other mem =>
      List.forall_mem_singleton.mpr (apart other mem)⟩

theorem gathers_of_foldlM (fold_eq : others.foldlM (addUnknown store) known = some constructors) :
    Gathers store known others constructors := by
  induction others generalizing known with
  | nil =>
    obtain rfl := Option.some.inj fold_eq
    exact ⟨fun _ => id, by simp, List.forall_mem_nil _, id⟩
  | cons first others ih =>
    obtain ⟨added, added_eq, rest_eq⟩ := Option.bind_eq_some_iff.mp
      (List.foldlM_cons.symm.trans fold_eq)
    have head := gathers_of_addUnknown added_eq
    have tail := ih rest_eq
    refine ⟨List.Subset.trans head.known_le tail.known_le, fun constructor mem => ?_,
      List.forall_mem_cons.mpr ⟨?_, tail.equal⟩, fun apart => tail.apart (head.apart apart)⟩
    · rw [List.append_cons]
      exact List.append_subset.mpr ⟨List.Subset.trans head.le_append (List.subset_append_left _ _),
        List.subset_append_right _ _⟩ (tail.le_append mem)
    · obtain ⟨constructor, mem, equal⟩ := head.equal first (List.mem_singleton_self first)
      exact ⟨constructor, tail.known_le mem, equal⟩

/-- Reading ends if the constructors can be compared. -/
theorem foldlM_addUnknown_ne_none
    (ends : ∀ left ∈ known ++ others, ∀ right ∈ others, store.sameConstructor left right ≠ none) :
    others.foldlM (addUnknown store) known ≠ none := by
  induction others generalizing known with
  | nil => exact nofun
  | cons first others ih =>
    have first_ends : isKnown store known first ≠ none := isKnown_ne_none fun other mem =>
      ends other (List.mem_append_left _ mem) first (List.mem_cons_self ..)
    rcases added_eq : addUnknown store known first with _ | added
    · rcases answer_eq : isKnown store known first with _ | _ | _
      · exact absurd answer_eq first_ends
      · simp [addUnknown, answer_eq] at added_eq
      · simp [addUnknown, answer_eq] at added_eq
    · have added_le : added ++ others ⊆ known ++ first :: others := by
        rw [List.append_cons]
        exact List.append_subset.mpr ⟨List.Subset.trans (subset_of_addUnknown added_eq)
          (List.subset_append_left _ _), List.subset_append_right _ _⟩
      have rest := ih fun left mem right right_mem =>
        ends left (added_le mem) right (List.mem_cons_of_mem _ right_mem)
      simpa [added_eq] using rest

/-- The constructors of a name which are listed are gathered from all layers. -/
theorem gathers_of_constructorsOf {registry : Registry} {name : String}
    (constructors_eq : registry.constructorsOf store name = some constructors) :
    Gathers store (registry.own.constructorsOf name)
      (registry.inherited.flatMap (·.constructorsOf name)) constructors :=
  gathers_of_foldlM constructors_eq

/-- The constructors which are listed are stored in some layer. -/
theorem subset_storedUnder {registry : Registry} {name : String}
    (constructors_eq : registry.constructorsOf store name = some constructors) :
    constructors ⊆ registry.storedUnder name :=
  (gathers_of_constructorsOf constructors_eq).le_append

/-- Each constructor which is stored in some layer equals one which is listed. -/
theorem exists_listed {registry : Registry} {name : String}
    (constructors_eq : registry.constructorsOf store name = some constructors)
    (stored : constructor ∈ registry.storedUnder name) :
    ∃ listed ∈ constructors, store.sameConstructor listed constructor = some true := by
  have gathers := gathers_of_constructorsOf constructors_eq
  rcases List.mem_append.mp stored with mem | mem
  · exact ⟨constructor, gathers.known_le mem, Store.same_self _⟩
  · exact gathers.equal constructor mem

end Reading

/-! ### What a registry keeps -/

section Keeping

variable {registry parent after : Registry} {store : Store} {name : String} {type : Ty}

theorem lookup?_extend (registry parent : Registry) (name : String) :
    (registry.extend parent).lookup? name = (registry.lookup? name).or (parent.lookup? name) := by
  have layers_eq : (registry.extend parent).layers = registry.layers ++ parent.layers := rfl
  rw [lookup?, layers_eq, List.findSome?_append]
  rfl

theorem storedUnder_extend (registry parent : Registry) (name : String) :
    (registry.extend parent).storedUnder name =
      registry.storedUnder name ++ parent.storedUnder name := by
  have layers_eq : (registry.extend parent).layers = registry.layers ++ parent.layers := rfl
  rw [storedUnder, layers_eq, List.flatMap_append]
  rfl

/-- What is declared stays declared when another type is. -/
theorem lookup?_of_declare (declare_eq : registry.declare store name type = .ok after)
    {other : String} {existing : Ty} (declared : registry.lookup? other = some existing) :
    after.lookup? other = some existing := by
  rcases declare_inv declare_eq with ⟨undeclared, rfl⟩ | ⟨-, rfl⟩
  · have distinct : other ≠ name := by
      rintro rfl
      simp [undeclared] at declared
    rw [lookup?_insert, if_neg distinct, declared]
  · exact declared

/-- A type which has been declared equals the one which is found under its name. -/
theorem exists_lookup?_of_declare (declare_eq : registry.declare store name type = .ok after) :
    ∃ existing, after.lookup? name = some existing ∧ store.same existing type = some true := by
  rcases declare_inv declare_eq with ⟨-, rfl⟩ | ⟨found, rfl⟩
  · exact ⟨type, by rw [lookup?_insert, if_pos rfl], Store.same_self type⟩
  · exact found

/-- Declaring a type leaves the constructors alone. -/
theorem storedUnder_of_declare (declare_eq : registry.declare store name type = .ok after) :
    after.storedUnder = registry.storedUnder ∧
      after.own.constructors = registry.own.constructors := by
  rcases declare_inv declare_eq with ⟨-, rfl⟩ | ⟨-, rfl⟩
  · exact ⟨rfl, rfl⟩
  · exact ⟨rfl, rfl⟩

/-- The registry with one more constructor in its own layer. -/
def addConstructor (registry : Registry) (constructor : Constructor Ty) : Registry :=
  { registry with
    own := { registry.own with
      constructors := registry.own.constructors.insert constructor.owner.name
        (registry.own.constructorsOf constructor.owner.name ++ [constructor]) } }

theorem mem_storedUnder_addConstructor {constructor other : Constructor Ty} :
    other ∈ (registry.addConstructor constructor).storedUnder name ↔
      other ∈ registry.storedUnder name ∨
        name = constructor.owner.name ∧ other = constructor := by
  simp only [storedUnder, layers, addConstructor, List.flatMap_cons, List.mem_append,
    Layer.mem_constructorsOf_append]
  tauto

variable {constructor : Constructor Ty}

/-- A constructor is declared with its data type, and is then left out if it equals one which is
listed. -/
theorem declareConstructor_cases
    (declare_eq : registry.declareConstructor store constructor = .ok after) :
    ∃ declared listed,
      registry.declare store constructor.owner.name (.dataRef constructor.owner) = .ok declared ∧
      declared.constructorsOf store constructor.owner.name = some listed ∧
      ((after = declared ∧
          ∃ other ∈ listed, store.sameConstructor other constructor = some true) ∨
        after = declared.addConstructor constructor ∧
          ∀ other ∈ listed, store.TellsApart other constructor) := by
  obtain ⟨declared, listed, declared_eq, listed_eq, ⟨known_eq, rfl⟩ | ⟨unknown_eq, rfl⟩⟩ :=
    declareConstructor_inv declare_eq
  · exact ⟨_, listed, declared_eq, listed_eq, .inl ⟨rfl, exists_of_isKnown known_eq⟩⟩
  · exact ⟨declared, listed, declared_eq, listed_eq,
      .inr ⟨rfl, isKnown_eq_false_iff.mp unknown_eq⟩⟩

/-- What is declared stays declared when a constructor is. -/
theorem lookup?_of_declareConstructor
    (declare_eq : registry.declareConstructor store constructor = .ok after) {other : String}
    {existing : Ty} (declared : registry.lookup? other = some existing) :
    after.lookup? other = some existing := by
  obtain ⟨_, _, declared_eq, -, ⟨rfl, -⟩ | ⟨rfl, -⟩⟩ := declareConstructor_cases declare_eq
  · exact lookup?_of_declare declared_eq declared
  · exact lookup?_of_declare declared_eq declared

end Keeping

/-! ### Accounts of what has been declared -/

/-- Some constructors have been declared in a registry, and all which it stores are among them. -/
structure Accounts (heap : Heap) (registry : Registry) (declared : List (Constructor Ty)) :
    Prop where
  holds : ∀ ⦃name type⦄, registry.lookup? name = some type → heap.Holds type
  known : ∀ constructor ∈ declared, heap.Known (.constructor constructor)
  stored : ∀ ⦃name⦄, ∀ constructor ∈ registry.storedUnder name,
    constructor.owner.name = name ∧ constructor ∈ declared
  visible : ∀ constructor ∈ declared, registry.lookup? constructor.owner.name ≠ none

/-- The constructors of each name in the own layer can be told apart, and each one which has been
declared equals one which is stored. -/
structure Distinguishes (store : Store) (registry : Registry) (declared : List (Constructor Ty)) :
    Prop where
  apart : ∀ name, (registry.own.constructorsOf name).Pairwise store.TellsApart
  kept : ∀ constructor ∈ declared, ∃ stored ∈ registry.storedUnder constructor.owner.name,
    store.sameConstructor stored constructor = some true

section Steps

variable {heap later : Heap} {registry parent after : Registry} {store : Store} {name : String}
  {type : Ty} {declared others : List (Constructor Ty)} {constructor : Constructor Ty}

theorem accounts_empty (heap : Heap) : Accounts heap {} [] where
  holds _ _ := nofun
  known := List.forall_mem_nil _
  stored _ _ mem := absurd mem List.not_mem_nil
  visible := List.forall_mem_nil _

theorem Accounts.declare (accounts : Accounts heap registry declared) (holds : heap.Holds type)
    (declare_eq : registry.declare heap.store name type = .ok after) :
    Accounts heap after declared where
  holds other existing lookup_eq := by
    rcases declare_inv declare_eq with ⟨-, rfl⟩ | ⟨-, rfl⟩
    · rw [lookup?_insert] at lookup_eq
      split at lookup_eq
      · exact Option.some.inj lookup_eq ▸ holds
      · exact accounts.holds lookup_eq
    · exact accounts.holds lookup_eq
  known := accounts.known
  stored name constructor stored := by
    rw [(storedUnder_of_declare declare_eq).1] at stored
    exact accounts.stored constructor stored
  visible constructor mem := by
    obtain ⟨existing, lookup_eq⟩ := Option.ne_none_iff_exists'.mp (accounts.visible constructor mem)
    rw [lookup?_of_declare declare_eq lookup_eq]
    exact nofun

theorem Accounts.declareConstructor (accounts : Accounts heap registry declared)
    (known : heap.Known (.constructor constructor))
    (declare_eq : registry.declareConstructor heap.store constructor = .ok after) :
    Accounts heap after (constructor :: declared) := by
  obtain ⟨middle, _, middle_eq, -, outcome⟩ := declareConstructor_cases declare_eq
  have declares := accounts.declare
    ((Heap.holds_dataRef _).mpr (Heap.known_owner known)) middle_eq
  obtain ⟨existing, existing_eq, -⟩ := exists_lookup?_of_declare middle_eq
  have visible : ∀ other ∈ constructor :: declared, middle.lookup? other.owner.name ≠ none :=
    List.forall_mem_cons.mpr ⟨by simp [existing_eq], declares.visible⟩
  have all_known : ∀ other ∈ constructor :: declared, heap.Known (.constructor other) :=
    List.forall_mem_cons.mpr ⟨known, declares.known⟩
  rcases outcome with ⟨rfl, -⟩ | ⟨rfl, -⟩
  · exact ⟨declares.holds, all_known, fun _ other stored =>
      (declares.stored other stored).imp_right (List.mem_cons_of_mem _), visible⟩
  · refine ⟨declares.holds, all_known, fun _ other stored => ?_, visible⟩
    rcases mem_storedUnder_addConstructor.mp stored with stored | ⟨rfl, rfl⟩
    · exact (declares.stored other stored).imp_right (List.mem_cons_of_mem _)
    · exact ⟨rfl, List.mem_cons_self ..⟩

theorem Accounts.addRules (accounts : Accounts heap registry declared) (name : String)
    (subject : Symbol) (rules : List Production) :
    Accounts heap (registry.addRules name subject rules) declared :=
  ⟨accounts.holds, accounts.known, accounts.stored, accounts.visible⟩

/-- A registry which is extended accounts for what both have declared. -/
theorem Accounts.extend (accounts : Accounts heap registry declared)
    (inherited : Accounts heap parent others) :
    Accounts heap (registry.extend parent) (declared ++ others) where
  holds name type lookup_eq := by
    rw [lookup?_extend] at lookup_eq
    rcases Option.or_eq_some_iff.mp lookup_eq with own_eq | ⟨-, parent_eq⟩
    · exact accounts.holds own_eq
    · exact inherited.holds parent_eq
  known := List.forall_mem_append.mpr ⟨accounts.known, inherited.known⟩
  stored name constructor stored := by
    rw [storedUnder_extend] at stored
    rcases List.mem_append.mp stored with stored | stored
    · exact (accounts.stored constructor stored).imp_right (List.mem_append_left _)
    · exact (inherited.stored constructor stored).imp_right (List.mem_append_right _)
  visible := by
    refine List.forall_mem_append.mpr ⟨fun constructor mem => ?_, fun constructor mem => ?_⟩
    · rw [lookup?_extend, ne_eq, Option.or_eq_none_iff]
      exact fun none_eq => accounts.visible constructor mem none_eq.1
    · rw [lookup?_extend, ne_eq, Option.or_eq_none_iff]
      exact fun none_eq => inherited.visible constructor mem none_eq.2

theorem Accounts.pass (accounts : Accounts heap registry declared)
    (fits : ∀ ⦃reference⦄, heap.Known reference → later.Known reference) :
    Accounts later registry declared where
  holds _ _ lookup_eq part mem := fits (accounts.holds lookup_eq part mem)
  known constructor mem := fits (accounts.known constructor mem)
  stored := accounts.stored
  visible := accounts.visible

theorem distinguishes_empty (store : Store) : Distinguishes store {} [] :=
  ⟨fun _ => .nil, List.forall_mem_nil _⟩

theorem Distinguishes.declare (distinguishes : Distinguishes store registry declared)
    (declare_eq : registry.declare store name type = .ok after) :
    Distinguishes store after declared := by
  obtain ⟨stored_eq, own_eq⟩ := storedUnder_of_declare declare_eq
  refine ⟨fun name => ?_, fun constructor mem => ?_⟩
  · rw [Layer.constructorsOf, own_eq]
    exact distinguishes.apart name
  · rw [stored_eq]
    exact distinguishes.kept constructor mem

theorem Distinguishes.declareConstructor (distinguishes : Distinguishes store registry declared)
    (declare_eq : registry.declareConstructor store constructor = .ok after) :
    Distinguishes store after (constructor :: declared) := by
  obtain ⟨middle, listed, middle_eq, listed_eq, outcome⟩ := declareConstructor_cases declare_eq
  have declares := distinguishes.declare middle_eq
  rcases outcome with ⟨rfl, other, mem, equal⟩ | ⟨rfl, unknown⟩
  · exact ⟨declares.apart, List.forall_mem_cons.mpr
      ⟨⟨other, subset_storedUnder listed_eq mem, equal⟩, declares.kept⟩⟩
  · refine ⟨fun name => ?_, List.forall_mem_cons.mpr ⟨⟨constructor, ?_, Store.same_self _⟩,
      fun other mem => ?_⟩⟩
    · rw [addConstructor, Layer.constructorsOf_insert]
      split
      · refine List.pairwise_append.mpr ⟨declares.apart _, List.pairwise_singleton _ _,
          fun own mem => List.forall_mem_singleton.mpr (unknown own ?_)⟩
        exact (gathers_of_constructorsOf listed_eq).known_le mem
      · exact declares.apart name
    · exact mem_storedUnder_addConstructor.mpr (.inr ⟨rfl, rfl⟩)
    · obtain ⟨stored, stored_mem, equal⟩ := declares.kept other mem
      exact ⟨stored, mem_storedUnder_addConstructor.mpr (.inl stored_mem), equal⟩

theorem Distinguishes.extend (distinguishes : Distinguishes store registry declared)
    (inherited : Distinguishes store parent others) :
    Distinguishes store (registry.extend parent) (declared ++ others) := by
  refine ⟨distinguishes.apart, List.forall_mem_append.mpr
    ⟨fun constructor mem => ?_, fun constructor mem => ?_⟩⟩
  · obtain ⟨stored, stored_mem, equal⟩ := distinguishes.kept constructor mem
    exact ⟨stored, storedUnder_extend .. ▸ List.mem_append_left _ stored_mem, equal⟩
  · obtain ⟨stored, stored_mem, equal⟩ := inherited.kept constructor mem
    exact ⟨stored, storedUnder_extend .. ▸ List.mem_append_right _ stored_mem, equal⟩

/-- Whether constructors of one name which could be compared compare later as they did. -/
def KeepsAnswers (before after : Store) (declared : List (Constructor Ty)) : Prop :=
  ∀ left ∈ declared, ∀ right ∈ declared, left.owner.name = right.owner.name → ∀ answer,
    before.sameConstructor left right = some answer →
      after.sameConstructor left right = some answer

instance (before after : Store) (declared : List (Constructor Ty)) :
    Decidable (KeepsAnswers before after declared) :=
  inferInstanceAs (Decidable (∀ left ∈ declared, ∀ right ∈ declared,
    left.owner.name = right.owner.name → ∀ answer,
      before.sameConstructor left right = some answer →
        after.sameConstructor left right = some answer))

theorem Distinguishes.pass (distinguishes : Distinguishes heap.store registry declared)
    (accounts : Accounts heap registry declared)
    (keeps : KeepsAnswers heap.store later.store declared) :
    Distinguishes later.store registry declared where
  apart name := (distinguishes.apart name).imp_of_mem fun left_mem right_mem apart => by
    obtain ⟨left_name, left_declared⟩ :=
      accounts.stored _ (List.mem_append_left _ left_mem : _ ∈ registry.storedUnder name)
    obtain ⟨right_name, right_declared⟩ :=
      accounts.stored _ (List.mem_append_left _ right_mem : _ ∈ registry.storedUnder name)
    exact keeps _ left_declared _ right_declared (left_name.trans right_name.symm) _ apart
  kept constructor mem := by
    obtain ⟨stored, stored_mem, equal⟩ := distinguishes.kept constructor mem
    obtain ⟨name_eq, stored_declared⟩ := accounts.stored stored stored_mem
    exact ⟨stored, stored_mem, keeps _ stored_declared _ mem name_eq _ equal⟩

end Steps

/-! ### Operations and histories -/

/-- An operation which adds to a registry. -/
inductive Operation where
  | declare (name : String) (type : Ty)
  | declareConstructor (constructor : Constructor Ty)
  | addRules (name : String) (subject : Symbol) (rules : List Production)

namespace Operation

/-- The registry after an operation which succeeds. -/
def change : Operation → Registry → Store → Except Failure Registry
  | declare name type, registry, store => registry.declare store name type
  | declareConstructor constructor, registry, store => registry.declareConstructor store constructor
  | addRules name subject rules, registry, _ => .ok (registry.addRules name subject rules)

/-- Performs an operation on the registry of a world. -/
def perform (operation : Operation) : Building Unit := Building.register operation.change

/-- Whether what an operation declares exists. -/
def Fits (heap : Heap) : Operation → Prop
  | declare _ type => heap.Holds type
  | declareConstructor constructor => heap.Known (.constructor constructor)
  | addRules _ _ _ => True

/-- The constructor which an operation declares. -/
def constructor? : Operation → Option (Constructor Ty)
  | declareConstructor constructor => some constructor
  | _ => none

end Operation

/-- How a registry has come about. -/
inductive History where
  | empty (heap : Heap)
  | perform (history : History) (operation : Operation)
  | extend (history parent : History)
  /-- References are made and slots are filled until the heap is as given. -/
  | pass (history : History) (heap : Heap)

namespace History

/-- The heap at the end of a history. -/
def heap : History → Heap
  | empty heap => heap
  | perform history _ => history.heap
  | extend history _ => history.heap
  | pass _ heap => heap

/-- The registry at the end of a history, in which operations may have failed. -/
def registry : History → Registry
  | empty _ => {}
  | perform history operation =>
    (operation.perform.run.run ⟨history.heap.store, history.registry⟩).2.registry
  | extend history parent => history.registry.extend parent.registry
  | pass history _ => history.registry

/-- The world at the end of a history. -/
def world (history : History) : World := ⟨history.heap.store, history.registry⟩

/-- The constructors which have been declared successfully, in a registry or in its ancestors. -/
def declared : History → List (Constructor Ty)
  | empty _ => []
  | perform history operation =>
    if (operation.perform.run.run history.world).1.toBool then
      operation.constructor?.toList ++ history.declared
    else history.declared
  | extend history parent => history.declared ++ parent.declared
  | pass history _ => history.declared

/-- Whether the operations of a history fit the heap of their time, and no reference vanishes.  A
registry is extended with another one as that is at the time. -/
def WellFormed : History → Prop
  | empty _ => True
  | perform history operation => history.WellFormed ∧ operation.Fits history.heap
  | extend history parent =>
    history.WellFormed ∧ parent.WellFormed ∧ parent.heap = history.heap
  | pass history heap =>
    history.WellFormed ∧ ∀ ⦃reference⦄, history.heap.Known reference → heap.Known reference

/-- Whether filling slots changes no comparison of constructors which have been declared under one
name. -/
def Steady : History → Prop
  | empty _ => True
  | perform history _ => history.Steady
  | extend history parent => history.Steady ∧ parent.Steady
  | pass history heap =>
    history.Steady ∧ KeepsAnswers history.heap.store heap.store history.declared

instance decidableSteady : (history : History) → Decidable history.Steady
  | empty _ => .isTrue trivial
  | perform history _ => decidableSteady history
  | extend history parent =>
    have := decidableSteady history
    have := decidableSteady parent
    inferInstanceAs (Decidable (history.Steady ∧ parent.Steady))
  | pass history heap =>
    have := decidableSteady history
    inferInstanceAs (Decidable (history.Steady ∧
      KeepsAnswers history.heap.store heap.store history.declared))

/-- Whether references are only made in a history, and no slot is filled. -/
def Growing : History → Prop
  | empty _ => True
  | perform history _ => history.Growing
  | extend history parent => history.Growing ∧ parent.Growing
  | pass history heap => history.Growing ∧ history.heap.GrowsTo heap

/-- Whether a history goes on to be another one. -/
inductive LeadsTo (history : History) : History → Prop where
  | refl : LeadsTo history history
  | perform {later : History} (leads : LeadsTo history later) (operation : Operation) :
    LeadsTo history (later.perform operation)
  | extend {later : History} (leads : LeadsTo history later) (parent : History) :
    LeadsTo history (later.extend parent)
  | pass {later : History} (leads : LeadsTo history later) (heap : Heap) :
    LeadsTo history (later.pass heap)

/-- What the constructors which a registry lists for a name are at the end of a history. -/
structure Lists (history : History) (name : String) (constructors : List (Constructor Ty)) :
    Prop where
  /-- No two of them are equal. -/
  apart : constructors.Pairwise history.heap.store.TellsApart
  owner_name : ∀ constructor ∈ constructors, constructor.owner.name = name
  /-- Just those are listed, up to equality, which have been declared. -/
  declared : constructors ⊆ history.declared
  complete : ∀ constructor ∈ history.declared, constructor.owner.name = name →
    ∃ listed ∈ constructors,
      history.heap.store.sameConstructor listed constructor = some true
  isDeclared : constructors ≠ [] → history.registry.isDeclared name = true

/-- Whether a registry has a set of constructors for each name, and never loses what it has. -/
structure HasSetSemantics (history : History) : Prop where
  lists : ∀ ⦃name constructors⦄,
    history.registry.constructorsOf history.heap.store name = some constructors →
      history.Lists name constructors
  /-- The constructors of a name are listed if those which have been declared can be compared. -/
  ends : ∀ name, (∀ left ∈ history.declared, ∀ right ∈ history.declared,
    left.owner.name = name → right.owner.name = name →
      history.heap.store.sameConstructor left right ≠ none) →
    history.registry.constructorsOf history.heap.store name ≠ none
  /-- What is found under a name stays the same object. -/
  keeps : ∀ ⦃later⦄, history.LeadsTo later → ∀ ⦃name type⦄,
    history.registry.lookup? name = some type → later.registry.lookup? name = some type
  /-- An operation which fails leaves the registry as it was. -/
  refused : ∀ ⦃operation : Operation⦄ ⦃failure after⦄,
    operation.perform.run.run history.world = (.error failure, after) → after = history.world

variable {history parent later : History} {operation : Operation}

/-- An operation fails and leaves everything as it was, or it succeeds. -/
theorem perform_cases (history : History) (operation : Operation) :
    (history.perform operation).registry = history.registry ∧
        (history.perform operation).declared = history.declared ∨
      ∃ after, operation.change history.registry history.heap.store = .ok after ∧
        (history.perform operation).registry = after ∧
        (history.perform operation).declared =
          operation.constructor?.toList ++ history.declared := by
  simp only [registry, declared, Operation.perform, world, Building.run_register]
  rcases operation.change history.registry history.heap.store with failure | after
  · exact .inl ⟨rfl, if_neg (by simp [Except.toBool])⟩
  · exact .inr ⟨after, rfl, rfl, if_pos rfl⟩

/-- An operation which succeeds keeps the declarations. -/
theorem lookup?_of_change {registry after : Registry} {store : Store} {name : String} {type : Ty}
    (change_eq : operation.change registry store = .ok after)
    (declared : registry.lookup? name = some type) : after.lookup? name = some type := by
  cases operation with
  | declare _ _ => exact lookup?_of_declare change_eq declared
  | declareConstructor _ => exact lookup?_of_declareConstructor change_eq declared
  | addRules _ _ _ =>
    obtain rfl := Except.ok.inj change_eq
    exact declared

theorem accounts_perform {after : Registry} (fits : operation.Fits history.heap)
    (accounts : Accounts history.heap history.registry history.declared)
    (change_eq : operation.change history.registry history.heap.store = .ok after) :
    Accounts history.heap after (operation.constructor?.toList ++ history.declared) := by
  cases operation with
  | declare _ _ => exact accounts.declare fits change_eq
  | declareConstructor _ => exact accounts.declareConstructor fits change_eq
  | addRules name subject rules =>
    obtain rfl := Except.ok.inj change_eq
    exact accounts.addRules name subject rules

/-- Throughout a history the registry accounts for what has been declared. -/
theorem accounts (wellFormed : history.WellFormed) :
    Accounts history.heap history.registry history.declared := by
  induction history with
  | empty heap => exact accounts_empty heap
  | perform history operation ih =>
    obtain ⟨registry_eq, declared_eq⟩ | ⟨after, change_eq, registry_eq, declared_eq⟩ :=
      perform_cases history operation
    · rw [registry_eq, declared_eq]
      exact ih wellFormed.1
    · rw [registry_eq, declared_eq]
      exact accounts_perform wellFormed.2 (ih wellFormed.1) change_eq
  | extend history parent ih ih_parent =>
    obtain ⟨wellFormed, parent_wellFormed, heap_eq⟩ := wellFormed
    exact (ih wellFormed).extend (heap_eq ▸ ih_parent parent_wellFormed)
  | pass history heap ih => exact (ih wellFormed.1).pass wellFormed.2

theorem distinguishes_perform {after : Registry}
    (distinguishes : Distinguishes history.heap.store history.registry history.declared)
    (change_eq : operation.change history.registry history.heap.store = .ok after) :
    Distinguishes history.heap.store after
      (operation.constructor?.toList ++ history.declared) := by
  cases operation with
  | declare _ _ => exact distinguishes.declare change_eq
  | declareConstructor _ => exact distinguishes.declareConstructor change_eq
  | addRules name subject rules =>
    obtain rfl := Except.ok.inj change_eq
    exact ⟨distinguishes.apart, distinguishes.kept⟩

/-- Throughout a steady history the constructors of each layer can be told apart, and none is
lost. -/
theorem distinguishes (wellFormed : history.WellFormed) (steady : history.Steady) :
    Distinguishes history.heap.store history.registry history.declared := by
  induction history with
  | empty heap => exact distinguishes_empty heap.store
  | perform history operation ih =>
    obtain ⟨registry_eq, declared_eq⟩ | ⟨after, change_eq, registry_eq, declared_eq⟩ :=
      perform_cases history operation
    · rw [registry_eq, declared_eq]
      exact ih wellFormed.1 steady
    · rw [registry_eq, declared_eq]
      exact distinguishes_perform (ih wellFormed.1 steady) change_eq
  | extend history parent ih ih_parent =>
    obtain ⟨wellFormed, parent_wellFormed, heap_eq⟩ := wellFormed
    exact (ih wellFormed steady.1).extend (heap_eq ▸ ih_parent parent_wellFormed steady.2)
  | pass history heap ih =>
    exact (ih wellFormed.1 steady.1).pass (accounts wellFormed.1) steady.2

/-- A history is steady if no slot is filled in it. -/
theorem steady_of_growing (wellFormed : history.WellFormed) (growing : history.Growing) :
    history.Steady := by
  induction history with
  | empty heap => trivial
  | perform history operation ih => exact ih wellFormed.1 growing
  | extend history parent ih ih_parent =>
    exact ⟨ih wellFormed.1 growing.1, ih_parent wellFormed.2.1 growing.2⟩
  | pass history heap ih =>
    refine ⟨ih wellFormed.1 growing.1, fun left left_mem right right_mem _ answer equal => ?_⟩
    have known := (accounts wellFormed.1).known
    rw [Heap.sameConstructor_eq growing.2.grows (known left left_mem) (known right right_mem), equal]

/-- What is found under a name is found there ever after. -/
theorem LeadsTo.lookup? (leads : history.LeadsTo later) {name : String} {type : Ty}
    (declared : history.registry.lookup? name = some type) :
    later.registry.lookup? name = some type := by
  induction leads with
  | refl => exact declared
  | @perform later _ operation ih =>
    obtain ⟨registry_eq, -⟩ | ⟨after, change_eq, registry_eq, -⟩ := perform_cases later operation
    · rw [registry_eq, ih]
    · rw [registry_eq, lookup?_of_change change_eq ih]
  | extend _ parent ih => rw [registry, lookup?_extend, ih, Option.some_or]
  | pass _ _ ih => exact ih

/-- The constructors of a name are listed if those which have been declared can be compared. -/
theorem constructorsOf_ne_none (wellFormed : history.WellFormed) {name : String}
    (comparable : ∀ left ∈ history.declared, ∀ right ∈ history.declared,
      left.owner.name = name → right.owner.name = name →
        history.heap.store.sameConstructor left right ≠ none) :
    history.registry.constructorsOf history.heap.store name ≠ none := by
  have accounts := accounts wellFormed
  refine foldlM_addUnknown_ne_none fun left left_mem right right_mem => ?_
  obtain ⟨left_name, left_declared⟩ := accounts.stored left left_mem
  obtain ⟨right_name, right_declared⟩ :=
    accounts.stored right (List.mem_append_right _ right_mem)
  exact comparable left left_declared right right_declared left_name right_name

/-- The constructors which a registry lists after a steady history are a set of what has been
declared. -/
theorem lists_of_steady (wellFormed : history.WellFormed) (steady : history.Steady)
    {name : String} {constructors : List (Constructor Ty)}
    (constructors_eq :
      history.registry.constructorsOf history.heap.store name = some constructors) :
    history.Lists name constructors := by
  have accounts := accounts wellFormed
  have distinguishes := distinguishes wellFormed steady
  have stored := subset_storedUnder constructors_eq
  refine ⟨(gathers_of_constructorsOf constructors_eq).apart (distinguishes.apart name),
    fun constructor mem => (accounts.stored constructor (stored mem)).1,
    fun constructor mem => (accounts.stored constructor (stored mem)).2,
    fun constructor mem name_eq => ?_, fun nonempty => ?_⟩
  · subst name_eq
    obtain ⟨kept, kept_mem, kept_equal⟩ := distinguishes.kept constructor mem
    obtain ⟨listed, listed_mem, listed_equal⟩ := exists_listed constructors_eq kept_mem
    obtain ⟨-, kept_declared⟩ := accounts.stored kept kept_mem
    obtain ⟨-, listed_declared⟩ := accounts.stored listed (stored listed_mem)
    have holds {other : Constructor Ty} (mem : other ∈ history.declared) :
        history.heap.Holds (.constructor other) :=
      (Heap.holds_constructor other).mpr (accounts.known other mem)
    exact ⟨listed, listed_mem, Heap.same_trans (holds listed_declared) (holds kept_declared)
      (holds mem) listed_equal kept_equal⟩
  · obtain ⟨constructor, mem⟩ := List.exists_mem_of_ne_nil constructors nonempty
    obtain ⟨rfl, declared⟩ := accounts.stored constructor (stored mem)
    exact Option.isSome_iff_ne_none.mpr (accounts.visible constructor declared)

end History

/-! Expressions, whose constructors are declared on both sides of a diamond. -/

namespace Diamond

open Session.Language

def base : History :=
  ((History.empty (heap false)).perform (.declare "Identifier" (.aliasRef identifier))).perform
    (.declareConstructor variable_)

def left : History :=
  ((History.empty (heap false)).extend base).perform (.declareConstructor again)

def right : History :=
  ((History.empty (heap false)).extend base).perform (.declareConstructor call)

/-- Only after both sides have been joined it becomes known what an identifier is. -/
def top : History :=
  ((left.extend right).pass (heap true)).perform (.declare "Identifier" (.prim .str))

theorem top_wellFormed : top.WellFormed := by
  simp [top, left, right, base, History.WellFormed, Operation.Fits, History.heap, heap, Heap.of,
    references]

example : top.registry.constructorsOf top.heap.store "Expression" = some [variable_, call] := rfl

/-- Two constructors which are declared while they differ, and then become equal. -/
def confluent : History :=
  (((History.empty (heap false)).perform (.declareConstructor variable_)).perform
    (.declareConstructor other)).pass (heap true)

end Diamond

end Registry

end Reification
