import Reification.Symbol
import Reification.Wire.Record

/-!
# Symbols on the wire

A primitive type is written as its name and any other symbol as an object whose only key is its
kind.  Symbols are read from at most `depth` nested brackets.
-/

namespace Reification.Symbol

mutual

/-- The tree of a symbol. -/
def toJson : Symbol → Json
  | prim primitive => .text primitive.name
  | label name inner => .variant "label" (.record [("name", .text name), ("symbol", inner.toJson)])
  | list element => .variant "list" element.toJson
  | set element => .variant "set" element.toJson
  | map key value => .variant "map" (.record [("from", key.toJson), ("to", value.toJson)])
  | tuple fields => .variant "tuple" (.array (toJsonAll fields))
  | func result arguments =>
    .variant "func"
      (.record [("ret", result.toJson), ("parameters", .array (toJsonAll arguments))])
  | reified inner => .variant "reified" inner.toJson
  | parameter name bound =>
    .variant "parameter" (.record [("name", .text name), ("bound", bound.toJson)])
  | dataRef name parameters =>
    .variant "adt" (.record [("name", .text name), ("parameters", .array (toJsonAll parameters))])
  | aliasRef name parameters =>
    .variant "alias"
      (.record [("name", .text name), ("parameters", .array (toJsonAll parameters))])
  | constructor owner name fields =>
    .variant "cons"
      (.record [("adt", owner.toJson), ("name", .text name),
        ("parameters", .array (toJsonAll fields))])
  | sort name => .variant "sort" (.record [("name", .text name)])

/-- The trees of some symbols. -/
def toJsonAll : List Symbol → List Json
  | [] => []
  | symbol :: symbols => symbol.toJson :: toJsonAll symbols

end

mutual

/-- The symbol of a tree. -/
def ofJson? : Nat → Json → Option Symbol
  | _, .string (some name) => (Primitive.ofName? name).map prim
  | depth + 1, .object [(some kind, content)] =>
    match Primitive.ofName? kind with
    | some primitive => if content matches .null then some (prim primitive) else none
    | none =>
      match kind with
      | "list" => (ofJson? depth content).map list
      | "set" => (ofJson? depth content).map set
      | "tuple" => (listOfJson? depth content).map tuple
      | "reified" => (ofJson? depth content).map reified
      | _ => ofRecord? depth kind content
  | _, _ => none

/-- The symbols of an array. -/
def listOfJson? : Nat → Json → Option (List Symbol)
  | depth + 1, .array items => items.mapM (ofJson? depth)
  | _, _ => none

/-- The symbol of some kind whose parts are the fields of a record. -/
def ofRecord? : Nat → String → Json → Option Symbol
  | 0, _, _ => none
  | depth + 1, kind, content =>
    match kind with
    | "label" => do
      let [some name, some inner] ← content.fields? ["name", "symbol"] | none
      return label (← name.text?) (← ofJson? depth inner)
    | "map" => do
      let [some key, some value] ← content.fields? ["from", "to"] | none
      return map (← ofJson? depth key) (← ofJson? depth value)
    | "func" => do
      let [some result, some arguments] ← content.fields? ["ret", "parameters"] | none
      return func (← ofJson? depth result) (← listOfJson? depth arguments)
    | "parameter" => do
      let [some name, some bound] ← content.fields? ["name", "bound"] | none
      return parameter (← name.text?) (← ofJson? depth bound)
    | "adt" => do
      let [some name, parameters] ← content.fields? ["name", "parameters"] | none
      return dataRef (← name.text?) (← (parameters.map (listOfJson? depth)).getD (some []))
    | "alias" => do
      let [some name, parameters] ← content.fields? ["name", "parameters"] | none
      return aliasRef (← name.text?) (← (parameters.map (listOfJson? depth)).getD (some []))
    | "cons" => do
      let [some owner, some name, some fields] ← content.fields? ["adt", "name", "parameters"]
        | none
      return constructor (← ofJson? depth owner) (← name.text?) (← listOfJson? depth fields)
    | "sort" => do
      let [some name] ← content.fields? ["name"] | none
      return sort (← name.text?)
    | _ => none

end

end Reification.Symbol
