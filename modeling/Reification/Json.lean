import Reification.Json.Decimal

/-!
# JSON trees

A JSON text denotes a tree.  The members of an object are kept in the order in which they are
written, repeated keys included, because it depends on the reader what a repeated key means.

Not every well-formed text can be read: a string may hold half of a surrogate pair, a number may
be out of range, and brackets may nest too deeply.  Such values may still be skipped, so they have a
place in the tree, and `Json.isReadable` tells them apart.
-/

namespace Reification

/-- A string literal, or nothing if it holds half of a surrogate pair, which denotes no
character. -/
abbrev Literal := Option String

/-- The tree of a JSON text. -/
inductive Json where
  | null
  | bool (truth : Bool)
  /-- A number without fraction and exponent, other than negative zero. -/
  | integer (number : Int)
  /-- Any other number. -/
  | decimal (number : Decimal)
  | string (literal : Literal)
  | array (items : List Json)
  /-- The keys with their values in the order in which they are written. -/
  | object (members : List (Literal × Json))
  deriving Inhabited

namespace Json

/-- A string of the tree. -/
def text (text : String) : Json := string (some text)

/-- An object whose keys are given as texts. -/
def record (members : List (String × Json)) : Json :=
  object (members.map fun (key, value) => (some key, value))

/-- The greatest number of nested brackets which a reader enters. -/
def maxDepth : Nat := 127

mutual

/-- Whether a whole tree can be read: its literals denote texts, its numbers are in range and at
most `depth` brackets are nested. -/
def isReadable (depth : Nat) : Json → Bool
  | null | bool _ => true
  | integer number => Decimal.isInRange number.natAbs 0
  | decimal number => Decimal.isInRange number.significand number.exponent
  | string literal => literal.isSome
  | array items =>
    match depth with
    | 0 => false
    | depth + 1 => areReadable depth items
  | object members =>
    match depth with
    | 0 => false
    | depth + 1 => membersAreReadable depth members

/-- Whether all trees of a list can be read. -/
def areReadable (depth : Nat) : List Json → Bool
  | [] => true
  | item :: items => item.isReadable depth && areReadable depth items

/-- Whether all members of an object can be read. -/
def membersAreReadable (depth : Nat) : List (Literal × Json) → Bool
  | [] => true
  | (key, value) :: members =>
    key.isSome && value.isReadable depth && membersAreReadable depth members

end

end Json

end Reification
