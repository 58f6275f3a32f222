import Reification.Production

/-!
# Types

A type refers to data types, aliases and constructors by references, which are objects of their own:
two references with the same content are the same object only if they have the same number.  The
constructors of a data type are no part of the reference to it, and neither is the body of an alias,
so that a type is a finite tree even if what it refers to is recursive.
-/

namespace Reification

/-- A position in a tuple, a function signature or a constructor. -/
structure Field (T : Type) where
  label : Option String
  type : T
  deriving Inhabited

/-- A reference to a data type. -/
structure DataRef (T : Type) where
  /-- The number of the object. -/
  object : Nat
  name : String
  parameters : List T
  deriving Inhabited

/-- A reference to an alias, whose body is kept in the slot of its number. -/
structure AliasRef (T : Type) where
  /-- The number of the object. -/
  object : Nat
  name : String
  parameters : List T
  deriving Inhabited

/-- A constructor of a data type. -/
structure Constructor (T : Type) where
  /-- The number of the object. -/
  object : Nat
  owner : DataRef T
  name : String
  fields : List (Field T)
  attributes : OrderedSet Attribute
  deriving Inhabited

/-- A type. -/
inductive Ty where
  | prim (primitive : Primitive)
  | list (element : Ty)
  | set (element : Ty)
  | map (key value : Ty)
  | tuple (fields : List (Field Ty))
  | func (result : Ty) (arguments : List (Field Ty))
  /-- The type of reified types. -/
  | reified (inner : Ty)
  /-- A type parameter with its upper bound. -/
  | parameter (name : String) (bound : Ty)
  | dataRef (reference : DataRef Ty)
  | aliasRef (reference : AliasRef Ty)
  | constructor (reference : Constructor Ty)
  /-- A syntax nonterminal. -/
  | sort (name : String)
  deriving Inhabited

namespace Ty

/-- The name of the declaration which a type refers to. -/
def name? : Ty → Option String
  | dataRef reference => some reference.name
  | aliasRef reference => some reference.name
  | constructor reference => some reference.owner.name
  | sort name => some name
  | _ => none

/-- The type parameters of a data type or an alias. -/
def parameters : Ty → List Ty
  | dataRef reference => reference.parameters
  | aliasRef reference => reference.parameters
  | _ => []

/-- Whether two types are the very same reference. -/
def isSameObject : Ty → Ty → Bool
  | dataRef left, dataRef right => left.object == right.object
  | aliasRef left, aliasRef right => left.object == right.object
  | constructor left, constructor right => left.object == right.object
  | _, _ => false

end Ty

end Reification
