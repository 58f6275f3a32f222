/-!
# Primitive types

The types without inner structure, the names by which they are known, and their order.
-/

namespace Reification

/-- A type without any inner structure. -/
inductive Primitive where
  | int
  | real
  | rat
  /-- The common supertype of `int`, `real` and `rat`. -/
  | num
  | bool
  | str
  | loc
  | datetime
  | node
  /-- The top of the type lattice. -/
  | value
  /-- The bottom of the type lattice. -/
  | void
  deriving DecidableEq, Inhabited, Repr

namespace Primitive

/-- All primitive types in their order. -/
def all : List Primitive :=
  [int, real, rat, num, bool, str, loc, datetime, node, value, void]

/-- The name of a primitive type. -/
def name : Primitive → String
  | int => "int"
  | real => "real"
  | rat => "rat"
  | num => "num"
  | bool => "bool"
  | str => "str"
  | loc => "loc"
  | datetime => "datetime"
  | node => "node"
  | value => "value"
  | void => "void"

/-- The position of a primitive type in the order. -/
def rank : Primitive → Nat
  | int => 0
  | real => 1
  | rat => 2
  | num => 3
  | bool => 4
  | str => 5
  | loc => 6
  | datetime => 7
  | node => 8
  | value => 9
  | void => 10

/-- The primitive type of a name. -/
def ofName? (name : String) : Option Primitive := all.find? (·.name == name)

theorem rank_lt (primitive : Primitive) : primitive.rank < 11 := by
  cases primitive <;> decide

theorem rank_injective {left right : Primitive} (rank_eq : left.rank = right.rank) :
    left = right := by
  cases left <;> cases right <;> first | rfl | simp [rank] at rank_eq

@[simp]
theorem ofName?_name (primitive : Primitive) : ofName? primitive.name = some primitive := by
  cases primitive <;> decide

theorem ofName?_eq_some {name : String} {primitive : Primitive}
    (found : ofName? name = some primitive) : name = primitive.name := by
  have matching := List.find?_some (show all.find? (·.name == name) = some primitive from found)
  exact (beq_iff_eq.mp matching).symm

end Primitive

end Reification
