import Reification.Json

/-!
# Records and variants on the wire

A record is an object with a member for each field or an array of its fields in their order.
Members of other names are skipped, whatever they hold.  A variant is an object with a single member
whose key names it; a variant without content may be written as its name alone.
-/

namespace Reification.Json

/-- The value under a key. -/
def member? (members : List (Literal × Json)) (key : String) : Option Json :=
  members.lookup (some key)

/-- Whether every key can be read and none of `names` is a key twice. -/
def haveDistinct (members : List (Literal × Json)) (names : List String) : Bool :=
  members.all (·.1.isSome) && names.all fun name => members.countP (·.1 == some name) ≤ 1

/-- The fields of a record which has them under `names`, as far as they are there. -/
def fields? (names : List String) : Json → Option (List (Option Json))
  | object members =>
    if haveDistinct members names then some (names.map (member? members)) else none
  | array items =>
    if items.length ≤ names.length then
      some (items.map some ++ List.replicate (names.length - items.length) none)
    else none
  | _ => none

/-- A text. -/
def text? : Json → Option String
  | string literal => literal
  | _ => none

/-- A variant with a content. -/
def variant (name : String) (content : Json) : Json := record [(name, content)]

end Reification.Json
