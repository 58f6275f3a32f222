import Reification.Proofs.Growth
import Reification.Proofs.Heap

/-!
# Growth of heaps

A reference which has just been made extends a heap, provided that its parts lie in the heap.  How
the types of the heap compare stays the same.
-/

namespace Reification

theorem Store.HasMade.of_grows {before after : Store} (grows : before.Grows after) {reference : Ty}
    (made : before.HasMade reference) : after.HasMade reference := by
  have := grows.made_le
  have := grows.size_le
  cases reference <;> simp only [HasMade] at made ⊢ <;> omega

theorem Store.HasMade.of_isSameObject {store : Store} {reference other : Ty}
    (made : store.HasMade reference) (same : reference.isSameObject other = true) :
    store.HasMade other := by
  cases reference <;> cases other <;> simp_all [HasMade, Ty.isSameObject]

theorem Store.body?_made (store : Store) (name : String) (parameters : List Ty)
    (body : Option Ty) :
    (store.makeAlias name parameters body).2.body? (store.makeAlias name parameters body).1 =
      body := by
  rw [body?_makeAlias]
  exact if_pos rfl

theorem Ty.isSameObject_comm (left right : Ty) :
    left.isSameObject right = right.isSameObject left := by
  cases left <;> cases right <;> simp [isSameObject, eq_comm]

namespace Heap

/-- A heap in which more references have been made. -/
structure GrowsTo (heap wider : Heap) : Prop where
  known : ∀ {reference}, heap.Known reference → wider.Known reference
  grows : heap.store.Grows wider.store

variable {heap wider widest : Heap}

theorem GrowsTo.refl (heap : Heap) : heap.GrowsTo heap := ⟨id, .refl _⟩

theorem GrowsTo.trans (first : heap.GrowsTo wider) (second : wider.GrowsTo widest) :
    heap.GrowsTo widest :=
  ⟨fun known => second.known (first.known known), first.grows.trans second.grows⟩

theorem Holds.mono {type : Ty} (holds : heap.Holds type) (growsTo : heap.GrowsTo wider) :
    wider.Holds type := fun part mem => growsTo.known (holds part mem)

theorem GrowsTo.body?_eq (growsTo : heap.GrowsTo wider) {reference : AliasRef Ty}
    (known : heap.Known (.aliasRef reference)) :
    wider.store.body? reference = heap.store.body? reference :=
  growsTo.grows.body?_eq (heap.made known)

section Extend

/-- The heap with one more reference, which has been made meanwhile. -/
def extend (heap : Heap) (reference : Ty) (store : Store) (grows : heap.store.Grows store)
    (made : store.HasMade reference) (new : ¬heap.store.HasMade reference)
    (parts : ∀ part ∈ reference.references, part = reference ∨ heap.Known part)
    (bodies : ∀ other body, reference = .aliasRef other → store.body? other = some body →
      heap.Holds body) : Heap where
  store := store
  Known other := other = reference ∨ heap.Known other
  unique {left right} left_known right_known same := by
    rcases left_known with rfl | left_known <;> rcases right_known with rfl | right_known
    · rfl
    · rw [Ty.isSameObject_comm] at same
      exact absurd ((heap.made right_known).of_isSameObject same) new
    · exact absurd ((heap.made left_known).of_isSameObject same) new
    · exact heap.unique left_known right_known same
  made {other} known := by
    rcases known with rfl | known
    · exact made
    · exact (heap.made known).of_grows grows
  closed {other part} known mem := by
    rcases known with rfl | known
    · exact parts part mem
    · exact .inr (heap.closed known mem)
  bodies {other body part} known body_eq mem := by
    rcases known with rfl | known
    · exact .inr (bodies other body rfl body_eq part mem)
    · rw [grows.body?_eq (heap.made known)] at body_eq
      exact .inr (heap.bodies known body_eq mem)

/-- The heap with one more reference. -/
theorem exists_extend (heap : Heap) (reference : Ty) {store : Store}
    (grows : heap.store.Grows store) (made : store.HasMade reference)
    (new : ¬heap.store.HasMade reference)
    (parts : ∀ part ∈ reference.references, part = reference ∨ heap.Known part)
    (bodies : ∀ other body, reference = .aliasRef other → store.body? other = some body →
      heap.Holds body) :
    ∃ wider : Heap, heap.GrowsTo wider ∧ wider.store = store ∧ wider.Known reference :=
  ⟨heap.extend reference store grows made new parts bodies, ⟨.inr, grows⟩, rfl, .inl rfl⟩

theorem known_of_mem_referencesOfAll {types : List Ty} (hold : ∀ type ∈ types, heap.Holds type)
    {part : Ty} (mem : part ∈ Ty.referencesOfAll types) : heap.Known part := by
  rw [Ty.referencesOfAll_eq] at mem
  obtain ⟨type, type_mem, mem⟩ := List.mem_flatMap.mp mem
  exact hold type type_mem part mem

theorem known_of_mem_referencesOfFields {fields : List (Field Ty)}
    (hold : ∀ field ∈ fields, heap.Holds field.type) {part : Ty}
    (mem : part ∈ Ty.referencesOfFields fields) : heap.Known part := by
  rw [Ty.referencesOfFields_eq] at mem
  obtain ⟨field, field_mem, mem⟩ := List.mem_flatMap.mp mem
  exact hold field field_mem part mem

variable (heap) {parameters : List Ty} (hold : ∀ type ∈ parameters, heap.Holds type) (name : String)

include hold

/-- A new data type lies in a heap if its parameters do. -/
theorem exists_makeData :
    ∃ wider : Heap, heap.GrowsTo wider ∧ wider.store = (heap.store.makeData name parameters).2 ∧
      wider.Known (.dataRef (heap.store.makeData name parameters).1) :=
  heap.exists_extend (.dataRef (heap.store.makeData name parameters).1)
    (.makeData name parameters) (Nat.lt_succ_self _) (Nat.lt_irrefl _)
    (fun _ mem => (List.mem_cons.mp mem).imp_right (known_of_mem_referencesOfAll hold)) (by simp)

/-- A new alias lies in a heap if its parameters and its body, as far as that is known, do. -/
theorem exists_makeAlias (body : Option Ty)
    (body_holds : ∀ known, body = some known → heap.Holds known) :
    ∃ wider : Heap, heap.GrowsTo wider ∧
      wider.store = (heap.store.makeAlias name parameters body).2 ∧
      wider.Known (.aliasRef (heap.store.makeAlias name parameters body).1) :=
  heap.exists_extend (.aliasRef (heap.store.makeAlias name parameters body).1)
    (.makeAlias name parameters body) (by simp [Store.HasMade, Store.makeAlias]) (Nat.lt_irrefl _)
    (fun _ mem => (List.mem_cons.mp mem).imp_right (known_of_mem_referencesOfAll hold))
    fun other known alias_eq body_eq => by
      obtain rfl := Ty.aliasRef.inj alias_eq
      exact body_holds known ((heap.store.body?_made name parameters body).symm.trans body_eq)

omit hold

/-- A new constructor lies in a heap if its data type and its fields do. -/
theorem exists_makeConstructor {owner : DataRef Ty} {fields : List (Field Ty)}
    (owner_known : heap.Known (.dataRef owner)) (hold : ∀ field ∈ fields, heap.Holds field.type)
    (attributes : OrderedSet Attribute) :
    ∃ wider : Heap, heap.GrowsTo wider ∧
      wider.store = (heap.store.makeConstructor owner name fields attributes).2 ∧
      wider.Known (.constructor (heap.store.makeConstructor owner name fields attributes).1) := by
  refine heap.exists_extend (.constructor (heap.store.makeConstructor owner name fields attributes).1)
    (.makeConstructor owner name fields attributes) (Nat.lt_succ_self _) (Nat.lt_irrefl _)
    (fun part mem => (List.mem_cons.mp mem).imp_right fun mem => ?_) (by simp)
  rcases List.mem_cons.mp mem with rfl | mem
  · exact owner_known
  · rcases List.mem_append.mp mem with mem | mem
    · exact known_of_mem_referencesOfAll (fun _ => holds_of_mem_parameters owner_known) mem
    · exact known_of_mem_referencesOfFields hold mem

/-- Filling the slot of an alias keeps a heap: what was known of bodies stays known. -/
theorem exists_fill {reference : AliasRef Ty} {body : Ty} {filled : Store}
    (fill_eq : heap.store.fill? reference body = some filled) (holds : heap.Holds body) :
    ∃ wider : Heap, wider.store = filled ∧ wider.Known = heap.Known ∧
      ∀ ⦃other known⦄, heap.store.body? other = some known → filled.body? other = some known := by
  have made_eq : filled.made = heap.store.made ∧
      filled.slots.size = heap.store.slots.size := by
    simp only [Store.fill?] at fill_eq
    split at fill_eq
    · obtain rfl := Option.some.inj fill_eq
      simp
    · simp at fill_eq
  have pending : ∀ other : AliasRef Ty, other.object = reference.object →
      heap.store.body? other = none := fun other object_eq => by
    rw [Store.body?, object_eq]
    exact Store.body?_eq_none_of_fill? fill_eq
  refine ⟨{ heap with
    store := filled
    made := fun {other} known => ?_
    bodies := fun {other otherBody part} known body_eq mem => ?_ }, rfl, rfl, ?_⟩
  · have made_iff : filled.HasMade other = heap.store.HasMade other := by
      cases other <;> simp [Store.HasMade, made_eq]
    exact made_iff ▸ heap.made known
  · rw [Store.body?_of_fill? fill_eq] at body_eq
    split at body_eq
    · obtain rfl := Option.some.inj body_eq
      exact holds part mem
    · exact heap.bodies known body_eq mem
  · intro other known body_eq
    rw [Store.body?_of_fill? fill_eq]
    split
    · next object_eq => simp [pending other object_eq] at body_eq
    · exact body_eq

end Extend

end Heap

end Reification
