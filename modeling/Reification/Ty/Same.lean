import Reification.Store

/-!
# Structural equality of types

Types are equal if they have the same structure, where references which are the same object are
equal and others are equal if their contents are: for an alias its name, its parameters and its
body, as far as that is known.  The attributes of constructors do not matter.

Comparing two aliases goes on with their bodies, so it need not end if both reach themselves.  An
answer is missing if a comparison does not end.
-/

namespace Reification

/-- Goes on with a second comparison if a first one finds no difference. -/
@[macro_inline]
def andThenSame (first second : Option Bool) : Option Bool :=
  match first with
  | some true => second
  | other => other

namespace Ty

mutual

/-- Compares two types, where `sameBody` compares the bodies of aliases. -/
def sameWith (sameBody : AliasRef Ty → AliasRef Ty → Option Bool) : Ty → Ty → Option Bool
  | prim left, prim right => some (left == right)
  | list left, list right => left.sameWith sameBody right
  | set left, set right => left.sameWith sameBody right
  | map leftKey leftValue, map rightKey rightValue =>
    andThenSame (leftKey.sameWith sameBody rightKey) (leftValue.sameWith sameBody rightValue)
  | tuple left, tuple right => sameFieldsWith sameBody left right
  | func leftResult left, func rightResult right =>
    andThenSame (leftResult.sameWith sameBody rightResult) (sameFieldsWith sameBody left right)
  | reified left, reified right => left.sameWith sameBody right
  | parameter leftName left, parameter rightName right =>
    andThenSame (some (leftName == rightName)) (left.sameWith sameBody right)
  | dataRef ⟨leftObject, leftName, left⟩, dataRef ⟨rightObject, rightName, right⟩ =>
    if leftObject = rightObject then some true
    else andThenSame (some (leftName == rightName)) (sameAllWith sameBody left right)
  | aliasRef ⟨leftObject, leftName, left⟩, aliasRef ⟨rightObject, rightName, right⟩ =>
    if leftObject = rightObject then some true
    else andThenSame (some (leftName == rightName))
      (andThenSame (sameAllWith sameBody left right)
        (sameBody ⟨leftObject, leftName, left⟩ ⟨rightObject, rightName, right⟩))
  | constructor ⟨leftObject, ⟨leftData, leftOwner, left⟩, leftName, leftFields, _⟩,
      constructor ⟨rightObject, ⟨rightData, rightOwner, right⟩, rightName, rightFields, _⟩ =>
    if leftObject = rightObject then some true
    else andThenSame
      (if leftData = rightData then some true
        else andThenSame (some (leftOwner == rightOwner)) (sameAllWith sameBody left right))
      (andThenSame (some (leftName == rightName)) (sameFieldsWith sameBody leftFields rightFields))
  | sort left, sort right => some (left == right)
  | _, _ => some false

/-- Compares two lists of types. -/
def sameAllWith (sameBody : AliasRef Ty → AliasRef Ty → Option Bool) :
    List Ty → List Ty → Option Bool
  | [], [] => some true
  | left :: lefts, right :: rights =>
    andThenSame (some (lefts.length == rights.length))
      (andThenSame (left.sameWith sameBody right) (sameAllWith sameBody lefts rights))
  | _, _ => some false

/-- Compares two lists of fields. -/
def sameFieldsWith (sameBody : AliasRef Ty → AliasRef Ty → Option Bool) :
    List (Field Ty) → List (Field Ty) → Option Bool
  | [], [] => some true
  | ⟨leftLabel, left⟩ :: lefts, ⟨rightLabel, right⟩ :: rights =>
    andThenSame (some (lefts.length == rights.length))
      (andThenSame (some (leftLabel == rightLabel))
        (andThenSame (left.sameWith sameBody right) (sameFieldsWith sameBody lefts rights)))
  | _, _ => some false

end

end Ty

namespace Store

/-- Compares the bodies of two aliases, as far as they are known. -/
def sameBody (store : Store) (same : Ty → Ty → Option Bool) (left right : AliasRef Ty) :
    Option Bool :=
  match store.body? left, store.body? right with
  | some left, some right => same left right
  | none, none => some true
  | _, _ => some false

/-- Compares two types through at most `depth` nested bodies of aliases. -/
def sameWithin (store : Store) : Nat → Ty → Ty → Option Bool
  | 0 => Ty.sameWith fun _ _ => none
  | depth + 1 => Ty.sameWith (store.sameBody (store.sameWithin depth))

/-- Bodies are compared for pairs of aliases, of which one is met again within its own comparison
if more of them are nested than there are. -/
def pairCount (store : Store) : Nat := store.slots.size * store.slots.size

/-- Whether two types are equal. -/
def same (store : Store) (left right : Ty) : Option Bool :=
  store.sameWithin (store.pairCount + 1) left right

/-- Whether two lists of types are equal. -/
def sameAll (store : Store) (left right : List Ty) : Option Bool :=
  Ty.sameAllWith (store.sameBody (store.sameWithin store.pairCount)) left right

/-- Whether two lists of fields are equal. -/
def sameFields (store : Store) (left right : List (Field Ty)) : Option Bool :=
  Ty.sameFieldsWith (store.sameBody (store.sameWithin store.pairCount)) left right

/-- Whether two constructors are equal. -/
def sameConstructor (store : Store) (left right : Constructor Ty) : Option Bool :=
  store.same (.constructor left) (.constructor right)

end Store

end Reification
