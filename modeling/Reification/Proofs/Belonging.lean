import Reification.Proofs.Histories

/-!
# The data types of constructors

A constructor belongs to the type which is found under the name of its data type.  Declaring a
constructor establishes this, and whatever is declared afterwards keeps it, since conflicts with
inherited declarations are detected.  Extending a registry joins two of them without such a check,
so that the constructors of the one belong to what is found under their names in both only if the
declarations agree.
-/

namespace Reification.Registry

/-- Whether a constructor belongs to the type which is found under a name. -/
def Owns (store : Store) (registry : Registry) (name : String) (constructor : Constructor Ty) :
    Prop :=
  ∃ visible, registry.lookup? name = some visible ∧
    store.same visible (.dataRef constructor.owner) = some true

/-- Whether every constructor which is stored belongs to the type which is found under its name. -/
def OwnsAll (store : Store) (registry : Registry) : Prop :=
  ∀ ⦃name⦄, ∀ constructor ∈ registry.storedUnder name, Owns store registry name constructor

/-- Whether declaring what another registry declares under the names of its constructors would not
conflict. -/
def Joins (store : Store) (registry parent : Registry) : Prop :=
  ∀ ⦃name visible⦄, parent.storedUnder name ≠ [] → parent.lookup? name = some visible →
    ∃ after, registry.declare store name visible = .ok after

section Owns

variable {heap : Heap} {registry parent after : Registry} {store : Store} {name : String}
  {type : Ty} {declared others : List (Constructor Ty)} {constructor listed : Constructor Ty}

/-- A constructor belongs to a type as long as that is found. -/
theorem Owns.of_lookup? (owns : Owns store registry name constructor)
    (keeps : ∀ visible, registry.lookup? name = some visible →
      after.lookup? name = some visible) : Owns store after name constructor := by
  obtain ⟨visible, visible_eq, same⟩ := owns
  exact ⟨visible, keeps visible visible_eq, same⟩

/-- Equal constructors belong to the same type. -/
theorem Accounts.owns_of_sameConstructor (accounts : Accounts heap registry declared)
    (owns : Owns heap.store registry name listed) (listed_mem : listed ∈ declared)
    (mem : constructor ∈ declared)
    (equal : heap.store.sameConstructor listed constructor = some true) :
    Owns heap.store registry name constructor := by
  obtain ⟨visible, visible_eq, same⟩ := owns
  have known := accounts.known constructor mem
  have listed_known := accounts.known listed listed_mem
  exact ⟨visible, visible_eq, Heap.same_trans (accounts.holds visible_eq)
    ((Heap.holds_dataRef _).mpr (Heap.known_owner listed_known))
    ((Heap.holds_dataRef _).mpr (Heap.known_owner known)) same
    (Heap.same_constructor listed_known known equal).1⟩

/-- Constructors which are stored belong to a type if those which are listed do. -/
theorem Accounts.owns_of_listed (accounts : Accounts heap registry declared)
    {constructors : List (Constructor Ty)}
    (constructors_eq : registry.constructorsOf heap.store name = some constructors)
    (owns : ∀ listed ∈ constructors, Owns heap.store registry name listed)
    (stored : constructor ∈ registry.storedUnder name) :
    Owns heap.store registry name constructor := by
  obtain ⟨listed, listed_mem, equal⟩ := exists_listed constructors_eq stored
  have listed_stored := subset_storedUnder constructors_eq listed_mem
  exact accounts.owns_of_sameConstructor (owns listed listed_mem)
    (accounts.stored listed listed_stored).2 (accounts.stored constructor stored).2 equal

theorem OwnsAll.declare (ownsAll : OwnsAll store registry)
    (declare_eq : registry.declare store name type = .ok after) : OwnsAll store after := by
  intro other constructor stored
  rw [(storedUnder_of_declare declare_eq).1] at stored
  exact (ownsAll constructor stored).of_lookup? fun _ => lookup?_of_declare declare_eq

theorem OwnsAll.declareConstructor (ownsAll : OwnsAll store registry)
    (declare_eq : registry.declareConstructor store constructor = .ok after) :
    OwnsAll store after := by
  obtain ⟨middle, _, middle_eq, -, ⟨rfl, -⟩ | ⟨rfl, -⟩⟩ := declareConstructor_cases declare_eq
  · exact ownsAll.declare middle_eq
  · intro name other stored
    rcases mem_storedUnder_addConstructor.mp stored with stored | ⟨rfl, rfl⟩
    · exact ownsAll.declare middle_eq other stored
    · have owns : Owns store middle other.owner.name other := exists_lookup?_of_declare middle_eq
      exact owns

/-- A registry finds what it would declare under a name, or it finds what the other one declares. -/
theorem Accounts.owns_extend (accounts : Accounts heap registry declared)
    (inherited : Accounts heap parent others) (joins : Joins heap.store registry parent)
    (stored : constructor ∈ parent.storedUnder name)
    (owns : Owns heap.store parent name constructor) :
    Owns heap.store (registry.extend parent) name constructor := by
  obtain ⟨visible, visible_eq, same⟩ := owns
  rcases lookup_eq : registry.lookup? name with _ | existing
  · exact ⟨visible, by rw [lookup?_extend, lookup_eq, visible_eq]; rfl, same⟩
  · obtain ⟨after, declare_eq⟩ := joins (List.ne_nil_of_mem stored) visible_eq
    obtain ⟨found, found_eq, equal⟩ := exists_lookup?_of_declare declare_eq
    obtain rfl := Option.some.inj ((lookup?_of_declare declare_eq lookup_eq).symm.trans found_eq)
    have known := inherited.known constructor (inherited.stored constructor stored).2
    exact ⟨existing, by rw [lookup?_extend, lookup_eq]; rfl,
      Heap.same_trans (accounts.holds lookup_eq) (inherited.holds visible_eq)
        ((Heap.holds_dataRef _).mpr (Heap.known_owner known)) equal same⟩

/-- Extending a registry with one that agrees keeps the owners of all constructors. -/
theorem Accounts.ownsAll_extend (accounts : Accounts heap registry declared)
    (inherited : Accounts heap parent others) (joins : Joins heap.store registry parent)
    (ownsAll : OwnsAll heap.store registry) (parent_ownsAll : OwnsAll heap.store parent) :
    OwnsAll heap.store (registry.extend parent) := by
  intro name constructor stored
  rw [storedUnder_extend] at stored
  rcases List.mem_append.mp stored with stored | stored
  · refine (ownsAll constructor stored).of_lookup? fun visible visible_eq => ?_
    rw [lookup?_extend, visible_eq, Option.some_or]
  · exact accounts.owns_extend inherited joins stored (parent_ownsAll constructor stored)

/-- If all constructors belong to what is found after extending a registry, it agrees with the
other one. -/
theorem Accounts.joins_of_ownsAll (accounts : Accounts heap registry declared)
    (inherited : Accounts heap parent others) (parent_ownsAll : OwnsAll heap.store parent)
    (ownsAll : OwnsAll heap.store (registry.extend parent)) :
    Joins heap.store registry parent := by
  intro name visible nonempty visible_eq
  rcases lookup_eq : registry.lookup? name with _ | existing
  · exact ⟨_, declare_of_undeclared lookup_eq⟩
  · obtain ⟨constructor, stored⟩ := List.exists_mem_of_ne_nil _ nonempty
    have stored_extend : constructor ∈ (registry.extend parent).storedUnder name :=
      storedUnder_extend .. ▸ List.mem_append_right _ stored
    obtain ⟨found, found_eq, found_same⟩ := ownsAll constructor stored_extend
    obtain ⟨_, other_eq, same⟩ := parent_ownsAll constructor stored
    obtain rfl := Option.some.inj (visible_eq.symm.trans other_eq)
    rw [lookup?_extend, lookup_eq, Option.some_or] at found_eq
    obtain rfl := Option.some.inj found_eq
    have known := inherited.known constructor (inherited.stored constructor stored).2
    have equal := Heap.same_trans (accounts.holds lookup_eq)
      ((Heap.holds_dataRef _).mpr (Heap.known_owner known)) (inherited.holds visible_eq)
      found_same (Store.same_symm same)
    exact ⟨registry, by rw [declare_of_declared lookup_eq, equal]⟩

end Owns

namespace History

/-- Whether each constructor which is listed for a name is owned by a data type that equals what is
found under the name. -/
def Belongs (history : History) : Prop :=
  ∀ ⦃name constructors⦄,
    history.registry.constructorsOf history.heap.store name = some constructors →
      ∀ constructor ∈ constructors, Owns history.heap.store history.registry name constructor

/-- Whether the constructors of every name can be listed. -/
def Readable (history : History) : Prop :=
  ∀ name, history.registry.constructorsOf history.heap.store name ≠ none

/-- Whether registries are extended only with such that agree with them, and the data types of
constructors stay equal to what is found under their names when slots are filled. -/
def Joined : History → Prop
  | empty _ => True
  | perform history _ => history.Joined
  | extend history parent =>
    history.Joined ∧ parent.Joined ∧ Joins history.heap.store history.registry parent.registry
  | pass history heap =>
    history.Joined ∧ ∀ constructor ∈ history.declared, ∀ visible,
      history.registry.lookup? constructor.owner.name = some visible →
        history.heap.store.same visible (.dataRef constructor.owner) = some true →
          heap.store.same visible (.dataRef constructor.owner) = some true

variable {history parent : History}

theorem ownsAll_perform {operation : Operation} {after : Registry}
    (ownsAll : OwnsAll history.heap.store history.registry)
    (change_eq : operation.change history.registry history.heap.store = .ok after) :
    OwnsAll history.heap.store after := by
  cases operation with
  | declare _ _ => exact ownsAll.declare change_eq
  | declareConstructor _ => exact ownsAll.declareConstructor change_eq
  | addRules _ _ _ =>
    obtain rfl := Except.ok.inj change_eq
    exact ownsAll

/-- Throughout a history in which only registries that agree are joined, every constructor belongs
to what is found under its name. -/
theorem ownsAll_of_joined (wellFormed : history.WellFormed) (joined : history.Joined) :
    OwnsAll history.heap.store history.registry := by
  induction history with
  | empty heap => exact fun _ _ stored => absurd stored List.not_mem_nil
  | perform history operation ih =>
    obtain ⟨registry_eq, -⟩ | ⟨after, change_eq, registry_eq, -⟩ := perform_cases history operation
    · rw [registry_eq]
      exact ih wellFormed.1 joined
    · have ownsAll := ownsAll_perform (ih wellFormed.1 joined) change_eq
      rwa [registry_eq]
  | extend history parent ih ih_parent =>
    obtain ⟨wellFormed, parent_wellFormed, heap_eq⟩ := wellFormed
    obtain ⟨joined, parent_joined, joins⟩ := joined
    exact (accounts wellFormed).ownsAll_extend (heap_eq ▸ accounts parent_wellFormed) joins
      (ih wellFormed joined) (heap_eq ▸ ih_parent parent_wellFormed parent_joined)
  | pass history heap ih =>
    intro name constructor stored
    obtain ⟨rfl, declared⟩ := (accounts wellFormed.1).stored constructor stored
    obtain ⟨visible, visible_eq, same⟩ := ih wellFormed.1 joined.1 constructor stored
    exact ⟨visible, visible_eq, joined.2 constructor declared visible visible_eq same⟩

theorem belongs_of_ownsAll (ownsAll : OwnsAll history.heap.store history.registry) :
    history.Belongs := fun _ _ constructors_eq constructor mem =>
  ownsAll constructor (subset_storedUnder constructors_eq mem)

theorem ownsAll_of_belongs (wellFormed : history.WellFormed) (readable : history.Readable)
    (belongs : history.Belongs) : OwnsAll history.heap.store history.registry := by
  intro name constructor stored
  obtain ⟨constructors, constructors_eq⟩ := Option.ne_none_iff_exists'.mp (readable name)
  exact (accounts wellFormed).owns_of_listed constructors_eq (belongs constructors_eq) stored

/-- If only registries that agree are joined, every constructor which is listed belongs to what is
found under its name.  Extending a registry keeps this just if it agrees with the other one. -/
theorem belongs_of_joined (wellFormed : history.WellFormed) :
    (history.Joined → history.Belongs) ∧
      ∀ parent : History, parent.WellFormed → parent.heap = history.heap →
        history.Readable → parent.Readable → (history.extend parent).Readable →
          history.Belongs → parent.Belongs →
            ((history.extend parent).Belongs ↔
              Joins history.heap.store history.registry parent.registry) := by
  refine ⟨fun joined => belongs_of_ownsAll (ownsAll_of_joined wellFormed joined),
    fun parent parent_wellFormed heap_eq readable parent_readable extend_readable belongs
      parent_belongs => ?_⟩
  have accounts := accounts wellFormed
  have inherited := heap_eq ▸ History.accounts parent_wellFormed
  have ownsAll := ownsAll_of_belongs wellFormed readable belongs
  have parent_ownsAll := heap_eq ▸ ownsAll_of_belongs parent_wellFormed parent_readable parent_belongs
  have extend_wellFormed : (history.extend parent).WellFormed :=
    ⟨wellFormed, parent_wellFormed, heap_eq⟩
  constructor
  · intro extend_belongs
    exact accounts.joins_of_ownsAll inherited parent_ownsAll
      (ownsAll_of_belongs extend_wellFormed extend_readable extend_belongs)
  · intro joins
    exact belongs_of_ownsAll
      (accounts.ownsAll_extend inherited joins ownsAll parent_ownsAll)

end History

/-! Trees, which are declared without type parameters and with one. -/

namespace Grove

/-- Trees of nodes of any kind. -/
def tree : DataRef Ty := ⟨0, "Tree", []⟩

/-- Trees of nodes of one kind. -/
def generic : DataRef Ty := ⟨1, "Tree", [.parameter "T" (.prim .value)]⟩

/-- The same data type, made once more. -/
def again : DataRef Ty := ⟨2, "Tree", [.parameter "T" (.prim .value)]⟩

def leaf : Constructor Ty :=
  ⟨3, generic, "leaf", [⟨some "element", .parameter "T" (.prim .value)⟩], ∅⟩

def node : Constructor Ty := ⟨4, again, "node", [⟨some "children", .list (.dataRef again)⟩], ∅⟩

def references : List Ty :=
  [.dataRef tree, .dataRef generic, .dataRef again, .constructor leaf, .constructor node]

def heap : Heap :=
  .of ⟨5, #[]⟩ references
    (by simp [references, Ty.isSameObject, tree, generic, again, leaf, node])
    (by simp [references, Store.HasMade, tree, generic, again, leaf, node])
    (by simp [references, Ty.references, Ty.referencesOfAll, Ty.referencesOfFields, Store.behind,
      tree, generic, again, leaf, node])

/-- A registry with trees of one kind. -/
def library : History := (History.empty heap).perform (.declareConstructor leaf)

/-- A registry which declares further trees of this kind. -/
def user : History := (History.empty heap).perform (.declareConstructor node)

/-- A registry which declares other trees. -/
def stranger : History := (History.empty heap).perform (.declare "Tree" (.dataRef tree))

theorem user_wellFormed : user.WellFormed := by
  simp [user, History.WellFormed, Operation.Fits, History.heap, heap, Heap.of, references]

theorem library_wellFormed : library.WellFormed := by
  simp [library, History.WellFormed, Operation.Fits, History.heap, heap, Heap.of, references]

/-- All constructors of trees can be compared. -/
theorem readable {history : History} (wellFormed : history.WellFormed)
    (comparable : ∀ left ∈ history.declared, ∀ right ∈ history.declared,
      history.heap.store.sameConstructor left right ≠ none) : history.Readable := fun _ =>
  History.constructorsOf_ne_none wellFormed fun left left_mem right right_mem _ _ =>
    comparable left left_mem right right_mem

theorem joins : Joins user.heap.store user.registry library.registry := by
  intro name visible nonempty visible_eq
  obtain ⟨constructor, stored⟩ := List.exists_mem_of_ne_nil _ nonempty
  obtain ⟨rfl, declared⟩ := (History.accounts library_wellFormed).stored constructor stored
  obtain rfl : constructor = leaf := List.mem_singleton.mp declared
  obtain rfl : .dataRef generic = visible := Option.some.inj visible_eq
  exact ⟨user.registry, rfl⟩

theorem user_extend_library_belongs :
    user.WellFormed ∧ library.WellFormed ∧ library.heap = user.heap ∧ user.Joined ∧
      user.Readable ∧ library.Readable ∧ (user.extend library).Readable ∧ user.Belongs ∧
        library.Belongs ∧ (user.extend library).Belongs := by
  have user_readable : user.Readable := readable user_wellFormed (by decide)
  have library_readable : library.Readable := readable library_wellFormed (by decide)
  have extend_readable : (user.extend library).Readable :=
    readable ⟨user_wellFormed, library_wellFormed, rfl⟩ (by decide)
  obtain ⟨user_belongs, extend_iff⟩ := History.belongs_of_joined user_wellFormed
  have library_belongs := (History.belongs_of_joined library_wellFormed).1 trivial
  exact ⟨user_wellFormed, library_wellFormed, rfl, trivial, user_readable, library_readable,
    extend_readable, user_belongs trivial, library_belongs,
    (extend_iff library library_wellFormed rfl user_readable library_readable extend_readable
      (user_belongs trivial) library_belongs).mpr joins⟩

example : (user.extend library).registry.constructorsOf heap.store "Tree" =
    some [node, leaf] := rfl

/-- The trees of the library conflict with those which a registry declares, but it can be extended
with the library; then it finds its own trees and lists a constructor of the others. -/
theorem stranger_extend_library_not_belongs :
    (stranger.extend library).WellFormed ∧
      stranger.registry.declare heap.store "Tree" (.dataRef generic) =
        .error (.error (.conflicting "Tree" "Tree" "Tree[&T]")) ∧
      ¬(stranger.extend library).Belongs := by
  have wellFormed : stranger.WellFormed := by
    simp [stranger, History.WellFormed, Operation.Fits, History.heap, heap, Heap.of, references]
  refine ⟨⟨wellFormed, library_wellFormed, rfl⟩, rfl, fun belongs => ?_⟩
  have listed : (stranger.extend library).registry.constructorsOf
      (stranger.extend library).heap.store "Tree" = some [leaf] := rfl
  obtain ⟨visible, visible_eq, same⟩ := belongs listed leaf (List.mem_singleton_self leaf)
  obtain rfl : .dataRef tree = visible := Option.some.inj visible_eq
  exact absurd same (by decide)

end Grove

end Reification.Registry
