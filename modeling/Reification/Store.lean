import Reification.Ty

/-!
# The store of references

The store numbers the references which have been made and keeps the bodies of aliases in slots.
An alias can be made before its body is known; its slot is filled once and never changes then.
-/

namespace Reification

/-- The references which have been made. -/
structure Store where
  /-- The number of references to data types and of constructors. -/
  made : Nat := 0
  /-- The body of each alias, by its number, as far as it is known. -/
  slots : Array (Option Ty) := #[]
  deriving Inhabited

namespace Store

/-- The body of an alias. -/
def body? (store : Store) (reference : AliasRef Ty) : Option Ty :=
  store.slots[reference.object]?.join

/-- Makes a reference to a data type. -/
def makeData (store : Store) (name : String) (parameters : List Ty) : DataRef Ty × Store :=
  (⟨store.made, name, parameters⟩, { store with made := store.made + 1 })

/-- Makes a constructor. -/
def makeConstructor (store : Store) (owner : DataRef Ty) (name : String)
    (fields : List (Field Ty)) (attributes : OrderedSet Attribute) : Constructor Ty × Store :=
  (⟨store.made, owner, name, fields, attributes⟩, { store with made := store.made + 1 })

/-- Makes an alias, whose body may be unknown yet. -/
def makeAlias (store : Store) (name : String) (parameters : List Ty) (body : Option Ty) :
    AliasRef Ty × Store :=
  (⟨store.slots.size, name, parameters⟩, { store with slots := store.slots.push body })

/-- Fills the slot of an alias, unless it has been filled before. -/
def fill? (store : Store) (reference : AliasRef Ty) (body : Ty) : Option Store :=
  match store.slots[reference.object]? with
  | some none => some { store with slots := store.slots.setIfInBounds reference.object (some body) }
  | _ => none

@[simp]
theorem body?_makeData (store : Store) (name : String) (parameters : List Ty)
    (reference : AliasRef Ty) :
    (store.makeData name parameters).2.body? reference = store.body? reference := rfl

@[simp]
theorem body?_makeConstructor (store : Store) (owner : DataRef Ty) (name : String)
    (fields : List (Field Ty)) (attributes : OrderedSet Attribute) (reference : AliasRef Ty) :
    (store.makeConstructor owner name fields attributes).2.body? reference =
      store.body? reference := rfl

/-- A new alias has the body with which it is made, and the others keep theirs. -/
theorem body?_makeAlias (store : Store) (name : String) (parameters : List Ty) (body : Option Ty)
    (reference : AliasRef Ty) :
    (store.makeAlias name parameters body).2.body? reference =
      if reference.object = store.slots.size then body else store.body? reference := by
  simp only [body?, makeAlias, Array.getElem?_push]
  split <;> rfl

/-- Filling a slot gives the alias its body, and the others keep theirs. -/
theorem body?_of_fill? {store filled : Store} {reference : AliasRef Ty} {body : Ty}
    (fill_eq : store.fill? reference body = some filled) (other : AliasRef Ty) :
    filled.body? other =
      if other.object = reference.object then some body else store.body? other := by
  simp only [fill?] at fill_eq
  split at fill_eq
  · next slot_eq =>
    obtain ⟨in_bounds, _⟩ := Array.getElem?_eq_some_iff.mp slot_eq
    obtain rfl := Option.some.inj fill_eq
    simp only [body?, Array.getElem?_setIfInBounds]
    by_cases same : other.object = reference.object
    · simp [same, in_bounds]
    · simp [same, Ne.symm same]
  · simp at fill_eq

/-- Only a slot which is empty is filled. -/
theorem body?_eq_none_of_fill? {store filled : Store} {reference : AliasRef Ty} {body : Ty}
    (fill_eq : store.fill? reference body = some filled) : store.body? reference = none := by
  simp only [fill?] at fill_eq
  split at fill_eq
  · next slot_eq => simp [body?, slot_eq]
  · simp at fill_eq

end Store

end Reification
