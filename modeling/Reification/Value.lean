import Reification.Definitions

/-!
# Values

A reified type travels as a value among other values.
-/

namespace Reification

/-- The complete symbolic form of a type: its symbol and the definitions of every name that can be
reached from it. -/
structure Reified where
  symbol : Symbol
  definitions : Definitions
  deriving DecidableEq, Inhabited

/-- A value which may be offered as a type; only `type` holds one. -/
inductive Value where
  | bool (truth : Bool)
  | int (number : Int)
  | str (text : String)
  | list (items : List Value)
  | symbol (symbol : Symbol)
  | production (production : Production)
  | type (reified : Reified)
  deriving Inhabited

/-- A short name for the kind of a value. -/
def Value.kind : Value → String
  | bool _ => "bool"
  | int _ => "int"
  | str _ => "str"
  | list _ => "list"
  | symbol _ => "symbol"
  | production _ => "production"
  | type _ => "type"

end Reification
