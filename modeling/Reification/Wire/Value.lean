import Reification.Json.Printer
import Reification.Json.Reader
import Reification.Value
import Reification.Wire.Production

/-!
# Values on the wire

Integers are written as a sign and the digits to the base `2 ^ 32`, least significant digit first.
-/

namespace Reification

namespace Digits

/-- The base of the digits. -/
def base : Nat := Nat.pow 2 32

/-- The digits of a number, least significant digit first. -/
def ofNat (number : Nat) : List Nat :=
  if positive : 0 < number then
    have : number / base < number := Nat.div_lt_self positive (by decide)
    number % base :: ofNat (number / base)
  else []

/-- The number with some digits, least significant digit first. -/
def toNat : List Nat → Nat
  | [] => 0
  | digit :: digits => digit + base * toNat digits

@[simp]
theorem toNat_ofNat (number : Nat) : toNat (ofNat number) = number := by
  fun_induction ofNat with
  | case1 number positive smaller ih => rw [toNat, ih, Nat.mod_add_div]
  | case2 number not_positive => simp [toNat]; omega

theorem lt_base_of_mem_ofNat (number : Nat) : ∀ digit ∈ ofNat number, digit < base := by
  fun_induction ofNat with
  | case1 number positive smaller ih =>
    intro digit mem
    rcases List.mem_cons.mp mem with rfl | mem
    · exact Nat.mod_lt _ (by decide)
    · exact ih digit mem
  | case2 => simp

/-- The tree of an integer. -/
def toJson (number : Int) : Json :=
  .array [.integer number.sign, .array ((ofNat number.natAbs).map (.integer ∘ Int.ofNat))]

/-- The sign in a tree. -/
def signOfJson? : Json → Option Int
  | .integer sign => if -1 ≤ sign ∧ sign ≤ 1 then some sign else none
  | _ => none

/-- The digit in a tree. -/
def digitOfJson? : Json → Option Nat
  | .integer digit => if 0 ≤ digit ∧ digit < base then some digit.toNat else none
  | _ => none

/-- The integer of a tree. -/
def ofJson? : Nat → Json → Option Int
  | _ + 2, .array [sign, .array digits] => do
    return (← signOfJson? sign) * toNat (← digits.mapM digitOfJson?)
  | _, _ => none

end Digits

namespace Reified

/-- The tree of a reified type. -/
def toJson (reified : Reified) : Json :=
  .record
    [("symbol", reified.symbol.toJson), ("definitions", Definitions.toJson reified.definitions)]

/-- The reified type of a tree. -/
def ofJson? : Nat → Json → Option Reified
  | 0, _ => none
  | depth + 1, json => do
    let [some symbol, some definitions] ← json.fields? ["symbol", "definitions"] | none
    return {
      symbol := ← Symbol.ofJson? depth symbol
      definitions := ← Definitions.ofJson? depth definitions }

end Reified

namespace Value

mutual

/-- The tree of a value. -/
def toJson : Value → Json
  | bool truth => .variant "bool" (.bool truth)
  | int number => .variant "int" (Digits.toJson number)
  | str text => .variant "str" (.text text)
  | list items => .variant "list" (.array (toJsonAll items))
  | symbol content => .variant "symbol" content.toJson
  | production content => .variant "production" content.toJson
  | type reified => .variant "type" reified.toJson

/-- The trees of some values. -/
def toJsonAll : List Value → List Json
  | [] => []
  | value :: values => value.toJson :: toJsonAll values

end

/-- The truth value of a tree. -/
def truthOfJson? : Json → Option Bool
  | .bool truth => some truth
  | _ => none

mutual

/-- The value of a tree. -/
def ofJson? : Nat → Json → Option Value
  | depth + 1, .object [(some kind, content)] =>
    match kind with
    | "bool" => (truthOfJson? content).map bool
    | "int" => (Digits.ofJson? depth content).map int
    | "str" => content.text?.map str
    | "list" => (listOfJson? depth content).map list
    | "symbol" => (Symbol.ofJson? depth content).map symbol
    | "production" => (Production.ofJson? depth content).map production
    | "type" => (Reified.ofJson? depth content).map type
    | _ => none
  | _, _ => none

/-- The values of an array. -/
def listOfJson? : Nat → Json → Option (List Value)
  | depth + 1, .array items => items.mapM (ofJson? depth)
  | _, _ => none

end

/-- The value which a text denotes. -/
def parse? (text : String) : Option Value :=
  (Json.parse? text).bind (ofJson? Json.maxDepth)

end Value

end Reification
