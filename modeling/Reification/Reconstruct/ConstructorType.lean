import Reification.Description
import Reification.Reconstruct

/-!
# Constructor types of single productions

A named production of a data type describes a constructor.  It is reconstructed in isolation: its
data type has the production as its only alternative, and every other name stays opaque.
-/

namespace Reification.Production

/-- The definitions which know nothing but one production of a name. -/
def alone (production : Production) (name : String) : Definitions :=
  Table.insert ∅ name
    { subject := production.subject, alternatives := OrderedSet.ofList [production] }

/-- The data type and the name of the constructor which a production describes. -/
def constructorName (production : Production) : Except Error (String × String) :=
  let subject := production.subject.withoutLabels
  match subject, production.name with
  | .dataRef owner _, some name => .ok (owner, name)
  | _, _ => .error (.notConstructor (subject.subject?.getD subject.describe))

/-- The constructor which a production describes, starting from an empty registry. -/
def constructorType (production : Production) : Building Ty := do
  match production.constructorName with
  | .error cause => throw (.error cause)
  | .ok (owner, name) =>
    discard (Reconstruct.typeOf (production.alone owner) production.subject)
    let constructors ← Building.ask (·.constructorsOf · owner)
    match constructors.find? (·.name = name) with
    | some constructor => return .constructor constructor
    | none => throw (.error (.fault (.missingConstructor name owner)))

end Reification.Production
