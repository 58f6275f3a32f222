import Reification.Store
import Reification.Table

/-!
# Instantiation

Instantiating a type replaces the type parameters which are bound, all at once, and leaves the
bounds of the others alone.  A reference to a data type or an alias with parameters becomes a new
one, and so does a constructor of such a data type; every other reference stays the same object.

The body of an instantiated alias is instantiated with it, so the result is missing if an alias with
parameters reaches itself through bodies.
-/

namespace Reification

/-- The types which are bound to the names of type parameters. -/
abbrev Bindings := Table Ty

namespace Bindings

/-- Binds one formal parameter, unless it is no type parameter. -/
def bind (bindings : Bindings) : Ty × Ty → Bindings
  | (.parameter name _, actual) => bindings.insert name actual
  | _ => bindings

/-- Binds formal to actual parameters; surplus ones do not count. -/
def ofParameters (formals actuals : List Ty) : Bindings := (formals.zip actuals).foldl bind ∅

end Bindings

/-- A computation which makes references, if it ends. -/
abbrev Making := StateT Store Option

namespace Making

/-- Makes a reference to a data type. -/
def newData (name : String) (parameters : List Ty) : Making (DataRef Ty) :=
  modifyGet (·.makeData name parameters)

/-- Makes an alias. -/
def newAlias (name : String) (parameters : List Ty) (body : Option Ty) : Making (AliasRef Ty) :=
  modifyGet (·.makeAlias name parameters body)

/-- Makes a constructor. -/
def newConstructor (owner : DataRef Ty) (name : String) (fields : List (Field Ty))
    (attributes : OrderedSet Attribute) : Making (Constructor Ty) :=
  modifyGet (·.makeConstructor owner name fields attributes)

end Making

namespace Ty

mutual

/-- Instantiates a type, where `body` gives the instantiated body of an alias. -/
def instantiateWith (bindings : Bindings) (body : AliasRef Ty → Making (Option Ty)) :
    Ty → Making Ty
  | prim primitive => pure (prim primitive)
  | list element => return list (← element.instantiateWith bindings body)
  | set element => return set (← element.instantiateWith bindings body)
  | map key value =>
    return map (← key.instantiateWith bindings body) (← value.instantiateWith bindings body)
  | tuple fields => return tuple (← instantiateFieldsWith bindings body fields)
  | func result arguments =>
    return func (← result.instantiateWith bindings body)
      (← instantiateFieldsWith bindings body arguments)
  | reified inner => return reified (← inner.instantiateWith bindings body)
  | parameter name bound => pure ((bindings.get? name).getD (parameter name bound))
  | dataRef ⟨object, name, parameters⟩ =>
    if parameters.isEmpty then pure (dataRef ⟨object, name, parameters⟩)
    else do
      let actuals ← instantiateAllWith bindings body parameters
      return dataRef (← Making.newData name actuals)
  | aliasRef ⟨object, name, parameters⟩ =>
    if parameters.isEmpty then pure (aliasRef ⟨object, name, parameters⟩)
    else do
      let actuals ← instantiateAllWith bindings body parameters
      return aliasRef (← Making.newAlias name actuals (← body ⟨object, name, parameters⟩))
  | constructor ⟨object, ⟨owner, ownerName, parameters⟩, name, fields, attributes⟩ =>
    if parameters.isEmpty then
      pure (constructor ⟨object, ⟨owner, ownerName, parameters⟩, name, fields, attributes⟩)
    else do
      let actuals ← instantiateAllWith bindings body parameters
      let owner ← Making.newData ownerName actuals
      let fields ← instantiateFieldsWith bindings body fields
      return constructor (← Making.newConstructor owner name fields attributes)
  | sort name => pure (sort name)

/-- Instantiates some types. -/
def instantiateAllWith (bindings : Bindings) (body : AliasRef Ty → Making (Option Ty)) :
    List Ty → Making (List Ty)
  | [] => pure []
  | type :: types =>
    return (← type.instantiateWith bindings body) :: (← instantiateAllWith bindings body types)

/-- Instantiates some fields. -/
def instantiateFieldsWith (bindings : Bindings) (body : AliasRef Ty → Making (Option Ty)) :
    List (Field Ty) → Making (List (Field Ty))
  | [] => pure []
  | ⟨label, type⟩ :: fields =>
    return ⟨label, ← type.instantiateWith bindings body⟩ ::
      (← instantiateFieldsWith bindings body fields)

end

/-- Instantiates a type through at most `depth` nested bodies of aliases. -/
def instantiateWithin (bindings : Bindings) : Nat → Ty → Making Ty
  | 0 => instantiateWith bindings fun _ => failure
  | depth + 1 =>
    instantiateWith bindings fun reference => do
      match (← get).body? reference with
      | some body => some <$> instantiateWithin bindings depth body
      | none => pure none

/-- Instantiates a type.  If more bodies are nested than there are aliases, one of them reaches
itself. -/
def instantiate (bindings : Bindings) (type : Ty) : Making Ty := do
  instantiateWithin bindings ((← get).slots.size + 1) type

end Ty

end Reification
