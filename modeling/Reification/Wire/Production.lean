import Reification.Definitions
import Reification.Wire.Symbol

/-!
# Productions and definitions on the wire

A production may be laid out in each of the three layouts.  The first layout wins whose own keys are
there as required, once each, and hold what belongs there; keys of other names do not matter, but
the whole production has to be readable.
-/

namespace Reification

namespace Associativity

/-- The name of an associativity. -/
def name : Associativity → String
  | left => "left"
  | right => "right"
  | nonAssoc => "non-assoc"

/-- The associativity of a name. -/
def ofName? : String → Option Associativity
  | "left" => some left
  | "right" => some right
  | "non-assoc" => some nonAssoc
  | _ => none

/-- The associativity of a tree. -/
def ofJson? : Nat → Json → Option Associativity
  | _, .string (some name) => ofName? name
  | _ + 1, .object [(some name, .null)] => ofName? name
  | _, _ => none

end Associativity

namespace Attribute

/-- The tree of an attribute. -/
def toJson : Attribute → Json
  | tag text => .variant "tag" (.text text)
  | assoc associativity => .variant "assoc" (.text associativity.name)
  | bracket => .text "bracket"

/-- The attribute of a tree. -/
def ofJson? : Nat → Json → Option Attribute
  | _, .string (some "bracket") => some bracket
  | depth + 1, .object [(some kind, content)] =>
    match kind with
    | "tag" => content.text?.map tag
    | "assoc" => (Associativity.ofJson? depth content).map assoc
    | "bracket" => if content matches .null then some bracket else none
    | _ => none
  | _, _ => none

/-- The set of the attributes in an array. -/
def setOfJson? : Nat → Json → Option (OrderedSet Attribute)
  | depth + 1, .array items => (items.mapM (ofJson? depth)).map .ofList
  | _, _ => none

/-- The tree of a set of attributes. -/
def setToJson (attributes : OrderedSet Attribute) : Json := .array (attributes.toList.map toJson)

end Attribute

namespace Layout

/-- The key of the subject. -/
def subjectKey : Layout → String
  | definition => "def"
  | data => "adt"
  | sort => "sort"

/-- The key of the symbols. -/
def symbolsKey : Layout → String
  | definition | data => "symbols"
  | sort => "parameters"

/-- Whether the symbols may be missing. -/
def hasOptionalSymbols : Layout → Bool
  | definition | data => true
  | sort => false

/-- The keys which belong to a layout. -/
def keys (layout : Layout) : List String :=
  [layout.subjectKey, "name", layout.symbolsKey, "attributes"]

/-- All layouts in the order in which they are tried. -/
def all : List Layout := [definition, data, sort]

end Layout

namespace Draft

/-- The tree of a draft in its own layout. -/
def toJson (draft : Draft) : Json :=
  .record
    [(draft.layout.subjectKey, draft.subject.toJson),
      ("name", (draft.name.map Json.text).getD .null),
      (draft.layout.symbolsKey, .array (Symbol.toJsonAll draft.symbols)),
      ("attributes", Attribute.setToJson draft.attributes)]

/-- The name in a draft, which may be null or missing. -/
def nameOfMember? : Option Json → Option (Option String)
  | none | some .null => some none
  | some json => json.text?.map some

/-- The symbols in a draft, which may be missing in some layouts. -/
def symbolsOfMember? (layout : Layout) (depth : Nat) : Option Json → Option (List Symbol)
  | some json => Symbol.listOfJson? depth json
  | none => if layout.hasOptionalSymbols then some [] else none

/-- The attributes in a draft, which may be missing. -/
def attributesOfMember? (depth : Nat) : Option Json → Option (OrderedSet Attribute)
  | some json => Attribute.setOfJson? depth json
  | none => some ∅

/-- The draft of some members in a given layout. -/
def ofMembers? (depth : Nat) (members : List (Literal × Json)) (layout : Layout) :
    Option Draft :=
  if Json.haveDistinct members layout.keys then do
    let subject ← Symbol.ofJson? depth (← Json.member? members layout.subjectKey)
    let name ← nameOfMember? (Json.member? members "name")
    let symbols ← symbolsOfMember? layout depth (Json.member? members layout.symbolsKey)
    let attributes ← attributesOfMember? depth (Json.member? members "attributes")
    return { layout, subject, name, symbols, attributes }
  else none

/-- The draft of a tree. -/
def ofJson? (depth : Nat) (json : Json) : Option Draft :=
  if json.isReadable depth then
    match depth, json with
    | depth + 1, .object members => Layout.all.findSome? (ofMembers? depth members)
    | _, _ => none
  else none

end Draft

namespace Production

/-- The tree of a production, which lacks a missing name and an empty set of attributes. -/
def toJson (production : Production) : Json :=
  .record <|
    [("def", production.subject.toJson)] ++
    (production.name.map fun name => ("name", Json.text name)).toList ++
    [("symbols", .array (Symbol.toJsonAll production.symbols))] ++
    if production.attributes.isEmpty then []
    else [("attributes", Attribute.setToJson production.attributes)]

/-- The production of a tree, however it is laid out. -/
def ofJson? (depth : Nat) (json : Json) : Option Production :=
  (Draft.ofJson? depth json).map Draft.normalize

/-- The set of the productions in an array. -/
def setOfJson? : Nat → Json → Option (OrderedSet Production)
  | depth + 1, .array items => (items.mapM (ofJson? depth)).map .ofList
  | _, _ => none

end Production

namespace Choice

/-- The tree of a choice. -/
def toJson (choice : Choice) : Json :=
  .record
    [("def", choice.subject.toJson),
      ("alternatives", .array (choice.alternatives.toList.map Production.toJson))]

/-- The choice of a tree. -/
def ofJson? : Nat → Json → Option Choice
  | 0, _ => none
  | depth + 1, json => do
    let [some subject, some alternatives] ← json.fields? ["def", "alternatives"] | none
    return {
      subject := ← Symbol.ofJson? depth subject
      alternatives := ← Production.setOfJson? depth alternatives }

end Choice

namespace Definitions

/-- The tree of definitions, an object with the names as keys. -/
def toJson (definitions : Definitions) : Json :=
  .record (definitions.entries.map fun (name, choice) => (name, choice.toJson))

/-- The name and the choice of a member. -/
def entryOfMember? (depth : Nat) : Literal × Json → Option (String × Choice)
  | (key, value) => do return (← key, ← Choice.ofJson? depth value)

/-- The definitions of a tree; the last member of a name counts. -/
def ofJson? : Nat → Json → Option Definitions
  | depth + 1, .object members => (members.mapM (entryOfMember? depth)).map Table.ofList
  | _, _ => none

end Definitions

end Reification
