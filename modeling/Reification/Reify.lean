import Reification.Registry
import Reification.Value

/-!
# Reifying types

Reifying a type gives its symbol and the definitions of every name which is reached from it.  The
declarations of data types and aliases are taken from a registry, the rules of nonterminals from a
registry and a grammar.  A name is expanded when it is met for the first time and never again, which
is why reifying ends on recursive declarations.
-/

namespace Reification

/-- A name in one of its uses. -/
inductive Mention where
  | dataRef (name : String)
  | aliasRef (name : String)
  | sort (name : String)
  deriving DecidableEq, Repr

/-- The name of a mention. -/
def Mention.name : Mention → String
  | dataRef name | aliasRef name | sort name => name

namespace Reify

/-- What a type is reified with. -/
structure Context where
  store : Store
  registry : Registry
  /-- Rules of nonterminals besides those of the registry. -/
  grammar : Definitions := ∅

/-- What has been met so far. -/
structure Progress where
  /-- The names which have been expanded. -/
  visited : List String := []
  /-- The alternatives which have been found, each with its subject. -/
  pairs : List (Symbol × Production) := []
  /-- The subjects which have been expanded and have no alternatives. -/
  bare : List Symbol := []

/-- A computation which collects definitions.  What was collected before a failure is kept. -/
abbrev Collecting := ExceptT Failure (StateM Progress)

/-- Marks a name as visited and tells whether it was not before. -/
def markVisited (name : String) : Collecting Bool := do
  let progress ← get
  if progress.visited.contains name then return false
  else
    set { progress with visited := name :: progress.visited }
    return true

/-- Records the alternatives of a subject. -/
def record (subject : Symbol) (alternatives : List Production) : Collecting Unit :=
  modify fun progress =>
    if alternatives.isEmpty then { progress with bare := progress.bare ++ [subject] }
    else { progress with pairs := progress.pairs ++ alternatives.map fun found => (subject, found) }

mutual

/-- The symbol of a type, where `visit` is told of every name after the parameters which are given
to it. -/
def symbolWith (visit : Mention → Collecting Unit) : Ty → Collecting Symbol
  | .prim primitive => return .prim primitive
  | .list element => return .list (← symbolWith visit element)
  | .set element => return .set (← symbolWith visit element)
  | .map key value => return .map (← symbolWith visit key) (← symbolWith visit value)
  | .tuple fields => return .tuple (← fieldsWith visit fields)
  | .func result arguments =>
    return .func (← symbolWith visit result) (← fieldsWith visit arguments)
  | .reified inner => return .reified (← symbolWith visit inner)
  | .parameter name bound => return .parameter name (← symbolWith visit bound)
  | .dataRef ⟨_, name, parameters⟩ => do
    let parameters ← symbolsWith visit parameters
    visit (.dataRef name)
    return .dataRef name parameters
  | .aliasRef ⟨_, name, parameters⟩ => do
    let parameters ← symbolsWith visit parameters
    visit (.aliasRef name)
    return .aliasRef name parameters
  | .constructor ⟨_, ⟨_, owner, parameters⟩, name, fields, _⟩ => do
    let parameters ← symbolsWith visit parameters
    visit (.dataRef owner)
    return .constructor (.dataRef owner parameters) name (← fieldsWith visit fields)
  | .sort name => do
    visit (.sort name)
    return .sort name

/-- The symbols of some types. -/
def symbolsWith (visit : Mention → Collecting Unit) : List Ty → Collecting (List Symbol)
  | [] => return []
  | type :: types => return (← symbolWith visit type) :: (← symbolsWith visit types)

/-- The symbols of some fields with their labels. -/
def fieldsWith (visit : Mention → Collecting Unit) : List (Field Ty) → Collecting (List Symbol)
  | [] => return []
  | ⟨label, type⟩ :: fields => do
    let symbol ← symbolWith visit type
    let symbol := match label with
      | some label => .label label symbol
      | none => symbol
    return symbol :: (← fieldsWith visit fields)

end

/-- The production of a constructor. -/
def productionWith (visit : Mention → Collecting Unit) (subject : Symbol)
    (constructor : Constructor Ty) : Collecting Production := do
  let symbols ← fieldsWith visit constructor.fields
  return { subject, name := some constructor.name, symbols, attributes := constructor.attributes }

/-- Records the constructors of a data type. -/
def expandData (context : Context) (visit : Mention → Collecting Unit) (name : String) :
    Collecting Unit := do
  let some declared := context.registry.lookupData? name
    | throw (.error (.undeclared .dataType name))
  let subject := Symbol.dataRef name (← symbolsWith visit declared.parameters)
  let constructors ← Failure.orEndless (context.registry.constructorsOf context.store name)
  record subject (← constructors.mapM (productionWith visit subject))

/-- Records the body of an alias. -/
def expandAlias (context : Context) (visit : Mention → Collecting Unit) (name : String) :
    Collecting Unit := do
  let some declared := context.registry.lookupAlias? name
    | throw (.error (.undeclared .aliasType name))
  let some body := context.store.body? declared
    | throw (.error (.fault (.missingBody name)))
  let subject := Symbol.aliasRef name (← symbolsWith visit declared.parameters)
  record subject [.ofAlias subject (← symbolWith visit body)]

/-- The rules of a nonterminal in the grammar and in the registry. -/
def rulesOf (context : Context) (name : String) : OrderedSet Production :=
  Definitions.alternativesOf context.grammar name ∪ context.registry.rulesOf name

/-- Expands a name when it is met for the first time, with at most `depth` expansions nested. -/
def visitWithin (context : Context) : Nat → Mention → Collecting Unit
  | 0, _ => throw .endless
  | depth + 1, mention => do
    if ← markVisited mention.name then
      match mention with
      | .dataRef name => expandData context (visitWithin context depth) name
      | .aliasRef name => expandAlias context (visitWithin context depth) name
      | .sort name => record (.sort name) (rulesOf context name).toList

/-- The symbol of a type.  Every nested expansion is that of another declaration. -/
def symbolOf (context : Context) (type : Ty) : Collecting Symbol :=
  symbolWith (visitWithin context (context.registry.declarationCount + 1)) type

/-- The definitions which have been collected, with those entries of the grammar which were not
reached. -/
def Progress.definitions (progress : Progress) (grammar : Definitions) : Definitions :=
  let found := Definitions.ofPairs progress.pairs
  let found := progress.bare.foldl
    (fun definitions subject =>
      match subject.subject? with
      | some name => Definitions.addAlternatives definitions name subject []
      | none => definitions)
    found
  grammar.entries.foldl
    (fun definitions (name, choice) =>
      if definitions.contains name then definitions else definitions.insert name choice)
    found

end Reify

/-- The complete symbolic form of a type. -/
def Ty.reify (context : Reify.Context) (type : Ty) : Except Failure Reified :=
  match (Reify.symbolOf context type).run {} with
  | (.ok symbol, progress) =>
    .ok { symbol, definitions := progress.definitions context.grammar }
  | (.error failure, _) => .error failure

/-- The symbols of some types in turn, and the definitions which are collected with all of them. -/
def Ty.reifyAll (context : Reify.Context) (types : List Ty) :
    List (Except Failure Symbol) × Definitions :=
  let (symbols, progress) := (types.mapM fun type =>
    (Reify.symbolOf context type).run : StateM Reify.Progress _).run {}
  (symbols, progress.definitions context.grammar)

end Reification
