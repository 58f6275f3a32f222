import Reification.Proofs.Induction
import Reification.Ty.References

/-!
# The references in a type

The references in a type are those in its parts.  What holds of all references in a type holds of
those in its parts, and so does what holds of the aliases among them.
-/

namespace Reification

namespace Ty

theorem referencesOfAll_eq (types : List Ty) :
    referencesOfAll types = types.flatMap references := by
  induction types with
  | nil => rfl
  | cons type types ih => simp [referencesOfAll, ih]

theorem referencesOfFields_eq (fields : List (Field Ty)) :
    referencesOfFields fields = fields.flatMap (·.type.references) := by
  induction fields with
  | nil => rfl
  | cons field fields ih => simp [referencesOfFields, ih]

theorem references_dataRef (reference : DataRef Ty) : (dataRef reference).references =
    dataRef reference :: reference.parameters.flatMap references :=
  congrArg _ (referencesOfAll_eq _)

theorem references_aliasRef (reference : AliasRef Ty) : (aliasRef reference).references =
    aliasRef reference :: reference.parameters.flatMap references :=
  congrArg _ (referencesOfAll_eq _)

theorem references_constructor (reference : Constructor Ty) : (constructor reference).references =
    constructor reference :: dataRef reference.owner ::
      (reference.owner.parameters.flatMap references ++
        reference.fields.flatMap (·.type.references)) := by
  rw [← referencesOfAll_eq, ← referencesOfFields_eq]
  rfl

/-- Whether something holds of all references in a type. -/
def AllReferences (P : Ty → Prop) (type : Ty) : Prop := ∀ reference ∈ type.references, P reference

section AllReferences

variable {P Q : Ty → Prop}

theorem AllReferences.imp {type : Ty} (all : type.AllReferences P)
    (imp : ∀ reference, P reference → Q reference) : type.AllReferences Q :=
  fun reference mem => imp reference (all reference mem)

theorem forall_mem_flatMap_references {α : Type} {items : List α} {typeOf : α → Ty} :
    (∀ reference ∈ items.flatMap (fun item => (typeOf item).references), P reference) ↔
      ∀ item ∈ items, (typeOf item).AllReferences P := by
  simp only [List.mem_flatMap, AllReferences]
  exact ⟨fun all item mem reference reference_mem => all reference ⟨item, mem, reference_mem⟩,
    fun all reference ⟨item, mem, reference_mem⟩ => all item mem reference reference_mem⟩

theorem forall_mem_referencesOfAll {types : List Ty} :
    (∀ reference ∈ referencesOfAll types, P reference) ↔ ∀ type ∈ types, type.AllReferences P := by
  rw [referencesOfAll_eq]
  exact forall_mem_flatMap_references

theorem forall_mem_referencesOfFields {fields : List (Field Ty)} :
    (∀ reference ∈ referencesOfFields fields, P reference) ↔
      ∀ field ∈ fields, field.type.AllReferences P := by
  rw [referencesOfFields_eq]
  exact forall_mem_flatMap_references

@[simp]
theorem allReferences_prim (primitive : Primitive) : (prim primitive).AllReferences P := nofun

@[simp]
theorem allReferences_sort (name : String) : (sort name).AllReferences P := nofun

@[simp]
theorem allReferences_list (element : Ty) :
    (list element).AllReferences P ↔ element.AllReferences P := Iff.rfl

@[simp]
theorem allReferences_set (element : Ty) :
    (set element).AllReferences P ↔ element.AllReferences P := Iff.rfl

@[simp]
theorem allReferences_reified (inner : Ty) :
    (reified inner).AllReferences P ↔ inner.AllReferences P := Iff.rfl

@[simp]
theorem allReferences_parameter (name : String) (bound : Ty) :
    (parameter name bound).AllReferences P ↔ bound.AllReferences P := Iff.rfl

@[simp]
theorem allReferences_map (key value : Ty) :
    (map key value).AllReferences P ↔ key.AllReferences P ∧ value.AllReferences P :=
  List.forall_mem_append

@[simp]
theorem allReferences_tuple (fields : List (Field Ty)) :
    (tuple fields).AllReferences P ↔ ∀ field ∈ fields, field.type.AllReferences P :=
  forall_mem_referencesOfFields

@[simp]
theorem allReferences_func (result : Ty) (arguments : List (Field Ty)) :
    (func result arguments).AllReferences P ↔
      result.AllReferences P ∧ ∀ field ∈ arguments, field.type.AllReferences P :=
  List.forall_mem_append.trans (and_congr_right' forall_mem_referencesOfFields)

@[simp]
theorem allReferences_dataRef (reference : DataRef Ty) :
    (dataRef reference).AllReferences P ↔
      P (dataRef reference) ∧ ∀ type ∈ reference.parameters, type.AllReferences P :=
  List.forall_mem_cons.trans (and_congr_right' forall_mem_referencesOfAll)

@[simp]
theorem allReferences_aliasRef (reference : AliasRef Ty) :
    (aliasRef reference).AllReferences P ↔
      P (aliasRef reference) ∧ ∀ type ∈ reference.parameters, type.AllReferences P :=
  List.forall_mem_cons.trans (and_congr_right' forall_mem_referencesOfAll)

@[simp]
theorem allReferences_constructor (reference : Constructor Ty) :
    (constructor reference).AllReferences P ↔
      P (constructor reference) ∧ (dataRef reference.owner).AllReferences P ∧
        ∀ field ∈ reference.fields, field.type.AllReferences P := by
  refine List.forall_mem_cons.trans (and_congr_right' ?_)
  rw [allReferences_dataRef, and_assoc]
  refine List.forall_mem_cons.trans (and_congr_right' ?_)
  exact List.forall_mem_append.trans
    (and_congr forall_mem_referencesOfAll forall_mem_referencesOfFields)

end AllReferences

/-- Whether something holds of all aliases in a type. -/
def AllAliases (P : AliasRef Ty → Prop) : Ty → Prop :=
  AllReferences fun reference => ∀ other, reference = aliasRef other → P other

section AllAliases

variable {P Q : AliasRef Ty → Prop}

theorem AllAliases.imp {type : Ty} (all : type.AllAliases P) (imp : ∀ reference, P reference →
    Q reference) : type.AllAliases Q :=
  AllReferences.imp all fun _ holds other same => imp other (holds other same)

theorem allAliases_true (type : Ty) : type.AllAliases fun _ => True := fun _ _ _ _ => trivial

@[simp]
theorem allAliases_prim (primitive : Primitive) : (prim primitive).AllAliases P :=
  allReferences_prim primitive

@[simp]
theorem allAliases_sort (name : String) : (sort name).AllAliases P := allReferences_sort name

@[simp]
theorem allAliases_list (element : Ty) : (list element).AllAliases P ↔ element.AllAliases P :=
  Iff.rfl

@[simp]
theorem allAliases_set (element : Ty) : (set element).AllAliases P ↔ element.AllAliases P :=
  Iff.rfl

@[simp]
theorem allAliases_reified (inner : Ty) : (reified inner).AllAliases P ↔ inner.AllAliases P :=
  Iff.rfl

@[simp]
theorem allAliases_parameter (name : String) (bound : Ty) :
    (parameter name bound).AllAliases P ↔ bound.AllAliases P := Iff.rfl

@[simp]
theorem allAliases_map (key value : Ty) :
    (map key value).AllAliases P ↔ key.AllAliases P ∧ value.AllAliases P :=
  allReferences_map key value

@[simp]
theorem allAliases_tuple (fields : List (Field Ty)) :
    (tuple fields).AllAliases P ↔ ∀ field ∈ fields, field.type.AllAliases P :=
  allReferences_tuple fields

@[simp]
theorem allAliases_func (result : Ty) (arguments : List (Field Ty)) :
    (func result arguments).AllAliases P ↔
      result.AllAliases P ∧ ∀ field ∈ arguments, field.type.AllAliases P :=
  allReferences_func result arguments

@[simp]
theorem allAliases_dataRef (reference : DataRef Ty) :
    (dataRef reference).AllAliases P ↔ ∀ type ∈ reference.parameters, type.AllAliases P := by
  simp [AllAliases]

@[simp]
theorem allAliases_aliasRef (reference : AliasRef Ty) :
    (aliasRef reference).AllAliases P ↔
      P reference ∧ ∀ type ∈ reference.parameters, type.AllAliases P := by
  simp [AllAliases]

@[simp]
theorem allAliases_constructor (reference : Constructor Ty) :
    (constructor reference).AllAliases P ↔
      (∀ type ∈ reference.owner.parameters, type.AllAliases P) ∧
        ∀ field ∈ reference.fields, field.type.AllAliases P := by
  simp [AllAliases]

end AllAliases

end Ty

end Reification
