import Reification.Ty

/-!
# The references in a type

The references to data types, aliases and constructors are listed from the outside in: a reference
comes before those in its parameters, a constructor before its owner and that before the fields.
Bodies of aliases are no part of a type.
-/

namespace Reification.Ty

mutual

/-- The references in a type. -/
def references : Ty → List Ty
  | prim _ | sort _ => []
  | list element => element.references
  | set element => element.references
  | map key value => key.references ++ value.references
  | tuple fields => referencesOfFields fields
  | func result arguments => result.references ++ referencesOfFields arguments
  | reified inner => inner.references
  | parameter _ bound => bound.references
  | dataRef ⟨object, name, parameters⟩ =>
    dataRef ⟨object, name, parameters⟩ :: referencesOfAll parameters
  | aliasRef ⟨object, name, parameters⟩ =>
    aliasRef ⟨object, name, parameters⟩ :: referencesOfAll parameters
  | constructor ⟨object, ⟨owner, ownerName, parameters⟩, name, fields, attributes⟩ =>
    constructor ⟨object, ⟨owner, ownerName, parameters⟩, name, fields, attributes⟩ ::
      dataRef ⟨owner, ownerName, parameters⟩ ::
        (referencesOfAll parameters ++ referencesOfFields fields)

/-- The references in some types. -/
def referencesOfAll : List Ty → List Ty
  | [] => []
  | type :: types => type.references ++ referencesOfAll types

/-- The references in some fields. -/
def referencesOfFields : List (Field Ty) → List Ty
  | [] => []
  | ⟨_, type⟩ :: fields => type.references ++ referencesOfFields fields

end

end Reification.Ty
