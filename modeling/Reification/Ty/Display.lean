import Reification.Ty

/-!
# The text of a type

References are written by name and parameters only, so that writing a type never unfolds a
declaration.
-/

namespace Reification

/-- Some texts in brackets, or nothing if there are none. -/
def bracketed (texts : List String) : String :=
  if texts.isEmpty then "" else "[" ++ ", ".intercalate texts ++ "]"

/-- A text with the label of its field. -/
def labeled (text : String) : Option String → String
  | some label => text ++ " " ++ label
  | none => text

namespace Ty

mutual

/-- The text of a type. -/
def display : Ty → String
  | prim primitive => primitive.name
  | list element => "list[" ++ element.display ++ "]"
  | set element => "set[" ++ element.display ++ "]"
  | map key value => "map[" ++ key.display ++ ", " ++ value.display ++ "]"
  | tuple fields => "tuple[" ++ ", ".intercalate (displayFields fields) ++ "]"
  | func result arguments =>
    result.display ++ " (" ++ ", ".intercalate (displayFields arguments) ++ ")"
  | reified inner => "type[" ++ inner.display ++ "]"
  | parameter name (prim .value) => "&" ++ name
  | parameter name bound => "&" ++ name ++ " <: " ++ bound.display
  | dataRef ⟨_, name, parameters⟩ => name ++ bracketed (displayAll parameters)
  | aliasRef ⟨_, name, parameters⟩ => name ++ bracketed (displayAll parameters)
  | constructor ⟨_, ⟨_, owner, parameters⟩, name, fields, _⟩ =>
    owner ++ bracketed (displayAll parameters) ++ "::" ++ name ++ "(" ++
      ", ".intercalate (displayFields fields) ++ ")"
  | sort name => name

/-- The texts of some types. -/
def displayAll : List Ty → List String
  | [] => []
  | type :: types => type.display :: displayAll types

/-- The texts of some fields. -/
def displayFields : List (Field Ty) → List String
  | [] => []
  | ⟨label, type⟩ :: fields => labeled type.display label :: displayFields fields

end

end Ty

end Reification
