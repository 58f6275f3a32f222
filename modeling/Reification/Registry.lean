import Reification.Definitions
import Reification.Error
import Reification.Ty.Display
import Reification.Ty.Same

/-!
# Registries

A registry knows which types are declared under which names, the constructors of data types and the
rules of syntax nonterminals.  It has a layer of its own and reads through to the layers which it
inherits.  Entries are only ever added, and declaring a name again with an equal type changes
nothing.
-/

namespace Reification

/-- The entries of one registry without those which it inherits. -/
structure Layer where
  /-- The types which are declared under names. -/
  declarations : Table Ty := ∅
  /-- The constructors of data types in the order in which they were declared. -/
  constructors : Table (List (Constructor Ty)) := ∅
  /-- The rules of syntax nonterminals. -/
  rules : Definitions := ∅
  deriving Inhabited

/-- The constructors of a name in a layer. -/
def Layer.constructorsOf (layer : Layer) (name : String) : List (Constructor Ty) :=
  (layer.constructors.get? name).getD []

/-- A layer together with the layers which it inherits. -/
structure Registry where
  own : Layer := {}
  /-- The inherited layers in the order in which they are consulted. -/
  inherited : List Layer := []
  deriving Inhabited

namespace Registry

/-- All layers in the order in which they are consulted. -/
def layers (registry : Registry) : List Layer := registry.own :: registry.inherited

/-- Inherits all layers of another registry after those which are inherited already. -/
def extend (registry parent : Registry) : Registry :=
  { registry with inherited := registry.inherited ++ parent.layers }

/-- An empty registry which inherits the layers of another one. -/
def inheriting (parent : Registry) : Registry := extend {} parent

/-- The type which is declared under a name. -/
def lookup? (registry : Registry) (name : String) : Option Ty :=
  registry.layers.findSome? (·.declarations.get? name)

/-- The data type which is declared under a name. -/
def lookupData? (registry : Registry) (name : String) : Option (DataRef Ty) :=
  match registry.lookup? name with
  | some (.dataRef reference) => some reference
  | _ => none

/-- The alias which is declared under a name. -/
def lookupAlias? (registry : Registry) (name : String) : Option (AliasRef Ty) :=
  match registry.lookup? name with
  | some (.aliasRef reference) => some reference
  | _ => none

/-- Whether a type is declared under a name. -/
def isDeclared (registry : Registry) (name : String) : Bool := (registry.lookup? name).isSome

/-- The names which are declared in the own layer. -/
def declaredNames (registry : Registry) : List String := registry.own.declarations.names

/-- The nonterminals with rules in the own layer. -/
def ruleNames (registry : Registry) : List String := registry.own.rules.names

/-- The number of declarations in all layers. -/
def declarationCount (registry : Registry) : Nat :=
  (registry.layers.flatMap (·.declarations.entries)).length

/-- Whether a constructor equals one of some others. -/
def isKnown (store : Store) (known : List (Constructor Ty)) (constructor : Constructor Ty) :
    Option Bool :=
  known.anyM (store.sameConstructor · constructor)

/-- Adds a constructor to some others, unless it equals one of them. -/
def addUnknown (store : Store) (known : List (Constructor Ty)) (constructor : Constructor Ty) :
    Option (List (Constructor Ty)) := do
  if ← isKnown store known constructor then return known else return known ++ [constructor]

/-- The constructors of a data type: those of the own layer, then the inherited ones which equal
none before them. -/
def constructorsOf (registry : Registry) (store : Store) (name : String) :
    Option (List (Constructor Ty)) :=
  (registry.inherited.flatMap (·.constructorsOf name)).foldlM (addUnknown store)
    (registry.own.constructorsOf name)

/-- The rules of a nonterminal in all layers. -/
def rulesOf (registry : Registry) (name : String) : OrderedSet Production :=
  registry.inherited.foldl (fun rules layer => rules ∪ layer.rules.alternativesOf name)
    (registry.own.rules.alternativesOf name)

/-- Declares a type under a name.  Declaring an equal type again does nothing, a different one
conflicts, also if the existing declaration is inherited. -/
def declare (registry : Registry) (store : Store) (name : String) (type : Ty) :
    Except Failure Registry :=
  match registry.lookup? name with
  | some existing => do
    if ← Failure.orEndless (store.same existing type) then return registry
    else throw (.error (.conflicting name existing.display type.display))
  | none =>
    return { registry with
      own := { registry.own with declarations := registry.own.declarations.insert name type } }

/-- Adds a constructor to those of its data type, which is declared first, unless an equal one is
known. -/
def declareConstructor (registry : Registry) (store : Store) (constructor : Constructor Ty) :
    Except Failure Registry := do
  let name := constructor.owner.name
  let registry ← registry.declare store name (.dataRef constructor.owner)
  let known ← Failure.orEndless (registry.constructorsOf store name)
  if ← Failure.orEndless (isKnown store known constructor) then return registry
  else
    let constructors := registry.own.constructorsOf name ++ [constructor]
    return { registry with
      own := { registry.own with
        constructors := registry.own.constructors.insert name constructors } }

/-- Adds rules of a nonterminal to the known ones. -/
def addRules (registry : Registry) (name : String) (subject : Symbol) (rules : List Production) :
    Registry :=
  { registry with
    own := { registry.own with
      rules := registry.own.rules.addAlternatives name subject rules } }

/-- Adds the rules of a whole grammar. -/
def addGrammar (registry : Registry) (grammar : Definitions) : Registry :=
  grammar.entries.foldl
    (fun registry (name, choice) =>
      registry.addRules name choice.subject choice.alternatives.toList)
    registry

end Registry

end Reification
