import Reification.Proofs.Mentions
import Reification.Proofs.Tree

/-!
# Entries

What a name stands for is read off the declarations and rules of a context: an entry has a subject,
the symbols which are gone through, and the alternatives which are recorded.  Expanding a name goes
through the mentions in its entry and then records the entry.
-/

namespace Reification

namespace Ty

mutual

/-- The symbol of a type. -/
def symbol : Ty → Symbol
  | prim primitive => .prim primitive
  | list element => .list element.symbol
  | set element => .set element.symbol
  | map key value => .map key.symbol value.symbol
  | tuple fields => .tuple (symbolsOfFields fields)
  | func result arguments => .func result.symbol (symbolsOfFields arguments)
  | reified inner => .reified inner.symbol
  | parameter name bound => .parameter name bound.symbol
  | dataRef ⟨_, name, parameters⟩ => .dataRef name (symbols parameters)
  | aliasRef ⟨_, name, parameters⟩ => .aliasRef name (symbols parameters)
  | constructor ⟨_, ⟨_, owner, parameters⟩, name, fields, _⟩ =>
    .constructor (.dataRef owner (symbols parameters)) name (symbolsOfFields fields)
  | sort name => .sort name

/-- The symbols of some types. -/
def symbols : List Ty → List Symbol
  | [] => []
  | type :: types => type.symbol :: symbols types

/-- The symbols of some fields. -/
def symbolsOfFields : List (Field Ty) → List Symbol
  | [] => []
  | ⟨label, type⟩ :: fields => Field.symbol ⟨label, type.symbol⟩ :: symbolsOfFields fields

end

@[simp]
theorem symbols_eq (types : List Ty) : symbols types = types.map symbol := by
  induction types with
  | nil => rfl
  | cons type types ih => simp [symbols, ih]

@[simp]
theorem symbolsOfFields_eq (fields : List (Field Ty)) :
    symbolsOfFields fields = fields.map fun field => (field.map symbol).symbol := by
  induction fields with
  | nil => rfl
  | cons field fields ih => simp [symbolsOfFields, ih, Field.map]

end Ty

theorem Field.mentions_symbol (label : Option String) (symbol : Symbol) :
    (Field.symbol ⟨label, symbol⟩).mentions = symbol.mentions := by
  cases label <;> rfl

theorem Field.names_symbol {label : Option String} {symbol : Symbol} {name : String} :
    (Field.symbol ⟨label, symbol⟩).Names name ↔ symbol.Names name := by
  cases label <;> rfl

/-- The production of a constructor of a data type with some symbol. -/
def Constructor.production (subject : Symbol) (constructor : Constructor Ty) : Production where
  subject
  name := some constructor.name
  symbols := Ty.symbolsOfFields constructor.fields
  attributes := constructor.attributes

namespace Reify

variable {visit : Mention → Collecting Unit}

theorem symbolsWith_eq {types : List Ty} (symbol_eq : ∀ type ∈ types, symbolWith visit type = do
      type.symbol.mentions.forM visit
      return type.symbol) : symbolsWith visit types = do
        (Symbol.mentionsOfAll (Ty.symbols types)).forM visit
        return Ty.symbols types := by
  induction types with
  | nil => simp [symbolsWith, Ty.symbols, Symbol.mentionsOfAll]
  | cons type types ih =>
    obtain ⟨head_eq, tail_eq⟩ := List.forall_mem_cons.mp symbol_eq
    rw [symbolsWith, head_eq, ih tail_eq]
    simp [Ty.symbols, Symbol.mentionsOfAll]

theorem fieldsWith_eq {fields : List (Field Ty)}
    (symbol_eq : ∀ field ∈ fields, symbolWith visit field.type = do
      field.type.symbol.mentions.forM visit
      return field.type.symbol) : fieldsWith visit fields = do
        (Symbol.mentionsOfAll (Ty.symbolsOfFields fields)).forM visit
        return Ty.symbolsOfFields fields := by
  induction fields with
  | nil => simp [fieldsWith, Symbol.mentionsOfAll]
  | cons field fields ih =>
    obtain ⟨label, type⟩ := field
    obtain ⟨head_eq, tail_eq⟩ := List.forall_mem_cons.mp symbol_eq
    rw [fieldsWith, head_eq, ih tail_eq]
    cases label <;>
      simp [Ty.symbolsOfFields, Symbol.mentionsOfAll, Field.symbol, Field.map, Symbol.mentions]

/-- The symbol of a type is found by visiting the mentions in it in their order. -/
theorem symbolWith_eq (visit : Mention → Collecting Unit) (type : Ty) :
    symbolWith visit type = do
      type.symbol.mentions.forM visit
      return type.symbol := by
  induction type using Ty.induction with
  | prim => simp [symbolWith, Ty.symbol, Symbol.mentions]
  | sort => simp [symbolWith, Ty.symbol, Symbol.mentions]
  | list _ ih | set _ ih | reified _ ih | parameter _ _ ih =>
    simp [symbolWith, ih, Ty.symbol, Symbol.mentions]
  | map _ _ ih_key ih_value => simp [symbolWith, ih_key, ih_value, Ty.symbol, Symbol.mentions]
  | tuple _ ih => simp [symbolWith, fieldsWith_eq ih, Ty.symbol, Symbol.mentions]
  | func _ _ ih ih_arguments =>
    simp [symbolWith, ih, fieldsWith_eq ih_arguments, Ty.symbol, Symbol.mentions]
  | dataRef _ _ _ ih => simp [symbolWith, symbolsWith_eq ih, Ty.symbol, Symbol.mentions]
  | aliasRef _ _ _ ih => simp [symbolWith, symbolsWith_eq ih, Ty.symbol, Symbol.mentions]
  | constructor _ _ _ _ _ _ _ ih ih_fields =>
    simp [symbolWith, symbolsWith_eq ih, fieldsWith_eq ih_fields, Ty.symbol, Symbol.mentions]

/-- What expanding a name goes through and what it records. -/
structure Entry where
  subject : Symbol
  /-- The symbols whose mentions are visited. -/
  symbols : List Symbol
  alternatives : List Production

/-- The choice which an entry is recorded as. -/
def Entry.choice (entry : Entry) : Choice where
  subject := entry.subject
  alternatives := .ofList entry.alternatives

/-- The entry of a name in one of its uses, if it is declared for that use. -/
def Context.entryOf? (context : Context) : Mention → Option Entry
  | .dataRef name => do
    let declared ← context.registry.lookupData? name
    let constructors ← context.registry.constructorsOf context.store name
    let formals := Ty.symbols declared.parameters
    return {
      subject := .dataRef name formals
      symbols := formals ++ constructors.flatMap fun constructor =>
        Ty.symbolsOfFields constructor.fields
      alternatives := constructors.map (·.production (.dataRef name formals)) }
  | .aliasRef name => do
    let declared ← context.registry.lookupAlias? name
    let body ← context.store.body? declared
    let formals := Ty.symbols declared.parameters
    return {
      subject := .aliasRef name formals
      symbols := formals ++ [body.symbol]
      alternatives := [.ofAlias (.aliasRef name formals) body.symbol] }
  | .sort name => some {
      subject := .sort name
      symbols := []
      alternatives := (rulesOf context name).toList }

section Entry

variable {context : Context} {name : String}

theorem Context.entryOf?_dataRef {declared : DataRef Ty} {constructors : List (Constructor Ty)}
    (declared_eq : context.registry.lookupData? name = some declared)
    (constructors_eq : context.registry.constructorsOf context.store name = some constructors) :
    context.entryOf? (.dataRef name) = some {
      subject := .dataRef name (Ty.symbols declared.parameters)
      symbols := Ty.symbols declared.parameters ++ constructors.flatMap fun constructor =>
        Ty.symbolsOfFields constructor.fields
      alternatives := constructors.map
        (·.production (.dataRef name (Ty.symbols declared.parameters))) } := by
  simp [entryOf?, declared_eq, constructors_eq]

theorem Context.entryOf?_aliasRef {declared : AliasRef Ty} {body : Ty}
    (declared_eq : context.registry.lookupAlias? name = some declared)
    (body_eq : context.store.body? declared = some body) :
    context.entryOf? (.aliasRef name) = some {
      subject := .aliasRef name (Ty.symbols declared.parameters)
      symbols := Ty.symbols declared.parameters ++ [body.symbol]
      alternatives :=
        [.ofAlias (.aliasRef name (Ty.symbols declared.parameters)) body.symbol] } := by
  simp [entryOf?, declared_eq, body_eq]

end Entry

/-- Expands a name which has not been met before. -/
def expand (context : Context) (visit : Mention → Collecting Unit) : Mention → Collecting Unit
  | .dataRef name => expandData context visit name
  | .aliasRef name => expandAlias context visit name
  | .sort name => record (.sort name) (rulesOf context name).toList

theorem visitWithin_succ (context : Context) (depth : Nat) (mention : Mention) :
    visitWithin context (depth + 1) mention = (do
      if ← markVisited mention.name then
        expand context (visitWithin context depth) mention) := by
  cases mention <;> rfl

theorem mapM_productionWith (subject : Symbol) (constructors : List (Constructor Ty)) :
    constructors.mapM (productionWith visit subject) = do
      (Symbol.mentionsOfAll (constructors.flatMap fun constructor =>
        Ty.symbolsOfFields constructor.fields)).forM visit
      return constructors.map (·.production subject) := by
  induction constructors with
  | nil => simp [Symbol.mentionsOfAll]
  | cons constructor constructors ih =>
    have fields_eq : fieldsWith visit constructor.fields = do
        (Symbol.mentionsOfAll (Ty.symbolsOfFields constructor.fields)).forM visit
        return Ty.symbolsOfFields constructor.fields :=
      fieldsWith_eq fun field _ => symbolWith_eq visit field.type
    simp only [List.mapM_cons, productionWith, fields_eq, ih, List.flatMap_cons,
      Symbol.mentionsOfAll_append]
    simp [Constructor.production]

theorem liftM_ok {α : Type} (result : α) :
    (liftM (Except.ok result : Except Failure α) : Collecting α) = pure result := rfl

/-- Expanding a name visits the mentions in its entry and records the entry. -/
theorem expand_eq {context : Context} {mention : Mention} {entry : Entry}
    (entry_eq : context.entryOf? mention = some entry) :
    expand context visit mention = (do
      (Symbol.mentionsOfAll entry.symbols).forM visit
      record entry.subject entry.alternatives) := by
  have formals_eq (types : List Ty) : symbolsWith visit types = do
      (Symbol.mentionsOfAll (Ty.symbols types)).forM visit
      return Ty.symbols types := symbolsWith_eq fun type _ => symbolWith_eq visit type
  cases mention with
  | dataRef name =>
    obtain ⟨declared, declared_eq, rest⟩ := Option.bind_eq_some_iff.mp entry_eq
    obtain ⟨constructors, constructors_eq, rest⟩ := Option.bind_eq_some_iff.mp rest
    obtain rfl := Option.some.inj rest
    simp [expand, expandData, declared_eq, constructors_eq, formals_eq, Failure.orEndless,
      liftM_ok, mapM_productionWith, Symbol.mentionsOfAll_append]
  | aliasRef name =>
    obtain ⟨declared, declared_eq, rest⟩ := Option.bind_eq_some_iff.mp entry_eq
    obtain ⟨body, body_eq, rest⟩ := Option.bind_eq_some_iff.mp rest
    obtain rfl := Option.some.inj rest
    simp [expand, expandAlias, declared_eq, body_eq, formals_eq, symbolWith_eq,
      Symbol.mentionsOfAll_append, Symbol.mentionsOfAll]
  | sort name =>
    obtain rfl := Option.some.inj entry_eq
    simp [expand, Symbol.mentionsOfAll]

end Reify

end Reification
