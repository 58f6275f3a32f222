import Reification.Registry
import Reification.Ty.Instantiate
import Reification.Value

/-!
# Reconstructing types

Reconstructing a symbol gives the type which it describes and declares, in a registry, every data
type, alias and nonterminal which it reaches.  A name that is not declared yet is expanded from its
alternatives; a name without alternatives becomes an opaque reference, which is not declared.

A data type is declared before its constructors and an alias before its body, so that they may refer
back to it.  Since entries are only added, expansions end unless formal parameters lead back to
their own name.
-/

namespace Reification

/-- The references which have been made together with a registry of them. -/
structure World where
  store : Store := {}
  registry : Registry := {}
  deriving Inhabited

/-- A computation which makes and declares types.  What was made and declared before a failure is
kept. -/
abbrev Building := ExceptT Failure (StateM World)

namespace Building

/-- Makes references. -/
def make {α : Type} (making : Making α) : Building α := do
  let world ← get
  match making.run world.store with
  | some (result, store) =>
    set { world with store }
    return result
  | none => throw .endless

/-- Changes the registry. -/
def register (change : Registry → Store → Except Failure Registry) : Building Unit := do
  let world ← get
  let registry ← change world.registry world.store
  set { world with registry }

/-- Asks something of the registry and the store, if there is an answer. -/
def ask {α : Type} (question : Registry → Store → Option α) : Building α := do
  let world ← get
  Failure.orEndless (question world.registry world.store)

end Building

namespace Reconstruct

/-- Where the alternatives of names are found. -/
abbrev Resolver := String → OrderedSet Production

/-- A declared type for some actual parameters.  It is the declared object itself if they are
missing or equal to the formal ones. -/
def applied (declared : Ty) (actuals : List Ty) : Building Ty := do
  if actuals.isEmpty then return declared
  else if ← Building.ask fun _ store => store.sameAll actuals declared.parameters then
    return declared
  else
    Building.make (declared.instantiate (.ofParameters declared.parameters actuals))

/-- The data type which a constructor belongs to.  If its owner is no data type, one is made up. -/
def ownerOf (owner : Ty) : Building (DataRef Ty) :=
  match owner with
  | .dataRef reference => return reference
  | other => Building.make (Making.newData (other.name?.getD other.display) other.parameters)

/-- The first of some constructors which, for given bindings, has a name and fields. -/
def findConstructor (bindings : Bindings) (name : String) (fields : List (Field Ty)) :
    List (Constructor Ty) → Building (Option Ty)
  | [] => return none
  | constructor :: constructors => do
    let candidate ← Building.make (Ty.instantiate bindings (.constructor constructor))
    match candidate with
    | .constructor found =>
      if found.name = name then
        if ← Building.ask fun _ store => store.sameFields found.fields fields then
          return some candidate
      findConstructor bindings name fields constructors
    | _ => findConstructor bindings name fields constructors

/-- The constructor of a data type with a name and fields: the declared one if there is one, and
otherwise a new one. -/
def constructorOf (owner : DataRef Ty) (name : String) (fields : List (Field Ty)) :
    Building Ty := do
  let registry := (← get).registry
  let formals := ((registry.lookupData? owner.name).map (·.parameters)).getD []
  let bindings := Bindings.ofParameters formals owner.parameters
  let constructors ← Building.ask (·.constructorsOf · owner.name)
  match ← findConstructor bindings name fields constructors with
  | some found => return found
  | none => return .constructor (← Building.make (Making.newConstructor owner name fields ∅))

mutual

/-- The type of a symbol, where `named` gives the type of a name with actual parameters and `sort`
is told of every nonterminal. -/
def typeWith (named : String → List Ty → Building Ty) (sort : String → Building Unit) :
    Symbol → Building Ty
  | .prim primitive => return .prim primitive
  | .label _ inner => typeWith named sort inner
  | .list element => return .list (← typeWith named sort element)
  | .set element => return .set (← typeWith named sort element)
  | .map key value => return .map (← typeWith named sort key) (← typeWith named sort value)
  | .tuple fields => return .tuple (← fieldsWith named sort fields)
  | .func result arguments =>
    return .func (← typeWith named sort result) (← fieldsWith named sort arguments)
  | .reified inner => return .reified (← typeWith named sort inner)
  | .parameter name bound => return .parameter name (← typeWith named sort bound)
  | .dataRef name parameters => do named name (← typesWith named sort parameters)
  | .aliasRef name parameters => do named name (← typesWith named sort parameters)
  | .constructor owner name fields => do
    let owner ← ownerOf (← typeWith named sort owner)
    constructorOf owner name (← fieldsWith named sort fields)
  | .sort name => do
    sort name
    return .sort name

/-- The types of some symbols. -/
def typesWith (named : String → List Ty → Building Ty) (sort : String → Building Unit) :
    List Symbol → Building (List Ty)
  | [] => return []
  | symbol :: symbols => return (← typeWith named sort symbol) :: (← typesWith named sort symbols)

/-- The fields of some symbols, whose outermost labels count. -/
def fieldsWith (named : String → List Ty → Building Ty) (sort : String → Building Unit) :
    List Symbol → Building (List (Field Ty))
  | [] => return []
  | symbol :: symbols =>
    return ⟨symbol.label?, ← typeWith named sort symbol⟩ :: (← fieldsWith named sort symbols)

end

/-- Adds the rules of a nonterminal, if there are some. -/
def sortWith (resolve : Resolver) (name : String) : Building Unit :=
  match (resolve name).first? with
  | some rule =>
    Building.register fun registry _ =>
      return registry.addRules name rule.subject (resolve name).toList
  | none => return ()

/-- The type of a name with actual parameters, where `expand` declares a name from its
alternatives. -/
def namedWith (resolve : Resolver) (expand : String → Symbol → Building Ty) (name : String)
    (actuals : List Ty) : Building Ty := do
  match (← get).registry.lookup? name with
  | some declared => applied declared actuals
  | none =>
    match (resolve name).first? with
    | some production => applied (← expand name production.subject) actuals
    | none => return .dataRef (← Building.make (Making.newData name actuals))

/-- Declares the constructors of a data type; alternatives without a name are none. -/
def declareConstructors (fieldsOf : List Symbol → Building (List (Field Ty)))
    (owner : DataRef Ty) : List Production → Building Unit
  | [] => return ()
  | production :: productions => do
    match production.name with
    | some name =>
      let fields ← fieldsOf production.symbols
      let constructor ←
        Building.make (Making.newConstructor owner name fields production.attributes)
      Building.register (·.declareConstructor · constructor)
    | none => pure ()
    declareConstructors fieldsOf owner productions

/-- Declares a data type and its constructors. -/
def declareData (fieldsOf : List Symbol → Building (List (Field Ty))) (name : String)
    (formals : List Ty) (alternatives : OrderedSet Production) : Building Ty := do
  let declared ← Building.make (Making.newData name formals)
  Building.register (·.declare · name (.dataRef declared))
  declareConstructors fieldsOf declared alternatives.toList
  return .dataRef declared

/-- The symbol of the body of an alias: the first one of its first alternative. -/
def bodySymbol? (alternatives : OrderedSet Production) : Option Symbol :=
  alternatives.first?.bind (·.symbols.head?)

/-- Declares an alias and fills its slot; an alias without a body stands for any value. -/
def declareAlias (typeOf : Symbol → Building Ty) (name : String) (formals : List Ty)
    (alternatives : OrderedSet Production) : Building Ty := do
  let declared ← Building.make (Making.newAlias name formals none)
  Building.register (·.declare · name (.aliasRef declared))
  let body ← match bodySymbol? alternatives with
    | some symbol => typeOf symbol
    | none => pure (.prim .value)
  let world ← get
  match world.store.fill? declared body with
  | some store => set { world with store }
  | none => throw (.error (.fault (.filledTwice name)))
  return .aliasRef declared

/-- Declares a name from its alternatives, of which `subject` belongs to the first one, with at most
`depth` expansions nested. -/
def expandWithin (resolve : Resolver) : Nat → String → Symbol → Building Ty
  | 0, _, _ => throw .endless
  | depth + 1, name, subject => do
    let named := namedWith resolve (expandWithin resolve depth)
    let sort := sortWith resolve
    match subject.withoutLabels with
    | .aliasRef _ parameters =>
      let formals ← typesWith named sort parameters
      declareAlias (typeWith named sort) name formals (resolve name)
    | .dataRef _ parameters =>
      let formals ← typesWith named sort parameters
      declareData (fieldsWith named sort) name formals (resolve name)
    | _ => declareData (fieldsWith named sort) name [] (resolve name)

/-- The type of a symbol with at most `depth` expansions nested. -/
def typeWithin (resolve : Resolver) (depth : Nat) (symbol : Symbol) : Building Ty :=
  typeWith (namedWith resolve (expandWithin resolve depth)) (sortWith resolve) symbol

/-- As many expansions can be nested: if a name is expanded within its own expansion, another one
has been declared meanwhile, or the expansion does not end. -/
def maxDepth (definitions : Definitions) : Nat :=
  definitions.size * (definitions.size + 1) + 1

/-- The type of a symbol with the alternatives in some definitions. -/
def typeOf (definitions : Definitions) (symbol : Symbol) : Building Ty :=
  typeWithin (Definitions.alternativesOf definitions) (maxDepth definitions) symbol

end Reconstruct

/-- The type of a symbol of which nothing else is known. -/
def Symbol.toType (symbol : Symbol) : Building Ty := Reconstruct.typeOf ∅ symbol

/-- The type which a reified type stands for. -/
def Reified.reconstruct (reified : Reified) : Building Ty :=
  Reconstruct.typeOf reified.definitions reified.symbol

/-- The type which a value holds. -/
def Value.reconstruct : Value → Building Ty
  | .type reified => reified.reconstruct
  | other => throw (.error (.notReified other.kind))

/-- Declares every name of some definitions, whether or not they have a common root. -/
def Definitions.declareAll (definitions : Definitions) : Building Unit :=
  definitions.values.forM fun choice =>
    discard (Reconstruct.typeOf definitions choice.subject)

end Reification
