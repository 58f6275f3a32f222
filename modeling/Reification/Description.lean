import Reification.Text.Quoted
import Reification.Value

/-!
# Descriptions

The description of a symbolic value is a text of one line which names every part of it.  It is meant
for diagnostics: two values have the same description only if they are the same.
-/

namespace Reification

namespace Description

/-- A name with named parts. -/
def record (name : String) (parts : List (String × String)) : String :=
  name ++ " \x7b " ++ ", ".intercalate (parts.map fun (key, part) => key ++ ": " ++ part) ++ " \x7d"

/-- A name with one part. -/
def wrap (name part : String) : String := name ++ "(" ++ part ++ ")"

/-- The items of a list. -/
def list (items : List String) : String := "[" ++ ", ".intercalate items ++ "]"

/-- The elements of a set. -/
def set (elements : List String) : String := "\x7b" ++ ", ".intercalate elements ++ "\x7d"

/-- A part which may be missing. -/
def option : Option String → String
  | some part => wrap "Some" part
  | none => "None"

end Description

open Description

/-- The description of a primitive type. -/
def Primitive.describe : Primitive → String
  | int => "Int"
  | real => "Real"
  | rat => "Rat"
  | num => "Num"
  | bool => "Bool"
  | str => "Str"
  | loc => "Loc"
  | datetime => "Datetime"
  | node => "Node"
  | value => "Value"
  | void => "Void"

namespace Symbol

mutual

/-- The description of a symbol. -/
def describe : Symbol → String
  | prim primitive => primitive.describe
  | label name inner => record "Label" [("name", Text.quote name), ("symbol", inner.describe)]
  | list element => wrap "List" element.describe
  | set element => wrap "Set" element.describe
  | map key value => record "Map" [("from", key.describe), ("to", value.describe)]
  | tuple fields => wrap "Tuple" (Description.list (describeAll fields))
  | func result arguments =>
    record "Func"
      [("ret", result.describe), ("parameters", Description.list (describeAll arguments))]
  | reified inner => wrap "Reified" inner.describe
  | parameter name bound =>
    record "Parameter" [("name", Text.quote name), ("bound", bound.describe)]
  | dataRef name parameters =>
    record "Adt"
      [("name", Text.quote name), ("parameters", Description.list (describeAll parameters))]
  | aliasRef name parameters =>
    record "Alias"
      [("name", Text.quote name), ("parameters", Description.list (describeAll parameters))]
  | constructor owner name fields =>
    record "Cons"
      [("adt", owner.describe), ("name", Text.quote name),
        ("parameters", Description.list (describeAll fields))]
  | sort name => record "Sort" [("name", Text.quote name)]

/-- The descriptions of some symbols. -/
def describeAll : List Symbol → List String
  | [] => []
  | symbol :: symbols => symbol.describe :: describeAll symbols

end

end Symbol

/-- The description of an associativity. -/
def Associativity.describe : Associativity → String
  | left => "Left"
  | right => "Right"
  | nonAssoc => "NonAssoc"

namespace Attribute

/-- The description of an attribute. -/
def describe : Attribute → String
  | tag text => wrap "Tag" (Text.quote text)
  | assoc associativity => wrap "Assoc" associativity.describe
  | bracket => "Bracket"

/-- The description of a set of attributes. -/
def describeSet (attributes : OrderedSet Attribute) : String :=
  set (attributes.toList.map describe)

end Attribute

/-- The description of a production. -/
def Production.describe (production : Production) : String :=
  record "Production"
    [("def", production.subject.describe),
      ("name", option (production.name.map Text.quote)),
      ("symbols", list (Symbol.describeAll production.symbols)),
      ("attributes", Attribute.describeSet production.attributes)]

/-- The name of a layout with the names of the subject and the symbols in descriptions. -/
def Layout.partNames : Layout → String × String × String
  | definition => ("Def", "def", "symbols")
  | data => ("Adt", "adt", "symbols")
  | sort => ("SymbolProd", "sort", "parameters")

/-- The description of a draft. -/
def Draft.describe (draft : Draft) : String :=
  let (kind, subject, symbols) := draft.layout.partNames
  record kind
    [(subject, draft.subject.describe),
      ("name", option (draft.name.map Text.quote)),
      (symbols, list (Symbol.describeAll draft.symbols)),
      ("attributes", Attribute.describeSet draft.attributes)]

/-- The description of a choice. -/
def Choice.describe (choice : Choice) : String :=
  record "Choice"
    [("def", choice.subject.describe),
      ("alternatives", set (choice.alternatives.toList.map Production.describe))]

/-- The description of definitions. -/
def Definitions.describe (definitions : Definitions) : String :=
  record "Definitions"
    [("map",
      set (definitions.entries.map fun (name, choice) =>
        Text.quote name ++ ": " ++ choice.describe))]

/-- The description of a reified type. -/
def Reified.describe (reified : Reified) : String :=
  record "ReifiedValue"
    [("symbol", reified.symbol.describe),
      ("definitions", Definitions.describe reified.definitions)]

namespace Value

mutual

/-- The description of a value. -/
def describe : Value → String
  | bool truth => wrap "Bool" (if truth then "true" else "false")
  | int number => wrap "Int" (toString number)
  | str text => wrap "Str" (Text.quote text)
  | list items => wrap "List" (Description.list (describeAll items))
  | symbol content => wrap "Symbol" content.describe
  | production content => wrap "Production" content.describe
  | type reified => wrap "Type" reified.describe

/-- The descriptions of some values. -/
def describeAll : List Value → List String
  | [] => []
  | value :: values => value.describe :: describeAll values

end

end Value

end Reification
