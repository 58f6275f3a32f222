import Reification.Description
import Reification.Reconstruct

/-!
# The text of a registry

A registry is written as one line for each declaration and one for each nonterminal of its own
layer, in the order of the names.
-/

namespace Reification

/-- The text of the type of a symbol of which nothing else is known, with the outermost label. -/
def Symbol.display (symbol : Symbol) : String :=
  let inner := symbol.withoutLabels
  let text := match (inner.toType.run {}).1 with
    | .ok type => type.display
    | .error _ => inner.describe
  labeled text symbol.label?

/-- The text of a syntax rule. -/
def Production.display (rule : Production) : String :=
  rule.name.getD "" ++ "(" ++ ", ".intercalate (rule.symbols.map Symbol.display) ++ ")"

/-- The text of a constructor without its owner. -/
def Constructor.display (constructor : Constructor Ty) : String :=
  constructor.name ++ "(" ++ ", ".intercalate (Ty.displayFields constructor.fields) ++ ")"

namespace Registry

/-- The line of a declaration. -/
def declarationLine (registry : Registry) (store : Store) (name : String) (declared : Ty) :
    Option String := do
  match declared with
  | .aliasRef reference =>
    let body := ((store.body? reference).map Ty.display).getD ""
    return "alias " ++ declared.display ++ " = " ++ body
  | _ =>
    let constructors ← registry.constructorsOf store name
    let alternatives := " | ".intercalate (constructors.map Constructor.display)
    return "data " ++ declared.display ++
      if constructors.isEmpty then "" else " = " ++ alternatives

/-- The line of a nonterminal. -/
def ruleLine (registry : Registry) (name : String) : String :=
  "syntax " ++ name ++ " = " ++
    " | ".intercalate ((registry.rulesOf name).toList.map Production.display)

/-- The lines of a registry. -/
def displayLines (registry : Registry) (store : Store) : Option (List String) := do
  let declarations ← registry.own.declarations.entries.mapM fun (name, declared) =>
    registry.declarationLine store name declared
  return declarations ++ registry.ruleNames.map registry.ruleLine

end Registry

/-- The text of a type followed by the lines of the registry in which it lives. -/
def World.display (world : World) (type : Ty) : Option String := do
  return "\n".intercalate (type.display :: (← world.registry.displayLines world.store))

end Reification
