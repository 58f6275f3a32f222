import Reification.Proofs.Growth
import Reification.Proofs.Traversal

/-!
# What reifying collects

A name is reached if it is mentioned in the type, or in the formal parameters, the constructors or
the body of what has been reached.  If no name is reached in two uses, reifying a type collects the
definitions of exactly the names which are reached from it, and takes over what the grammar has for
other names.
-/

namespace Reification.Reify

namespace Context

/-- The types which reifying goes through when it expands a name. -/
def expansionOf (context : Context) : Mention → List Ty
  | .dataRef name =>
    match context.registry.lookupData? name with
    | some declared => declared.parameters ++
        ((context.registry.constructorsOf context.store name).getD []).flatMap fun constructor =>
          constructor.fields.map (·.type)
    | none => []
  | .aliasRef name =>
    match context.registry.lookupAlias? name with
    | some declared => declared.parameters ++ (context.store.body? declared).toList
    | none => []
  | .sort _ => []

/-- Whether a name is reached from a type. -/
inductive Reached (context : Context) (type : Ty) : Mention → Prop where
  | named {mention : Mention} (mem : mention ∈ type.symbol.mentions) : Reached context type mention
  | expanded {mention next : Mention} {part : Ty} (reached : Reached context type mention)
    (part_mem : part ∈ context.expansionOf mention) (mem : next ∈ part.symbol.mentions) :
    Reached context type next

/-- Whether no name is reached in two uses. -/
def Unambiguous (context : Context) (type : Ty) : Prop :=
  ∀ ⦃mention other⦄, context.Reached type mention → context.Reached type other →
    mention.name = other.name → mention = other

/-- Whether a value consists of the symbol of a type and the definitions of exactly the names which
are reached from it, besides those of the grammar. -/
structure Collects (context : Context) (type : Ty) (reified : Reified) : Prop where
  symbol_eq : reified.symbol = type.symbol
  mem_names_iff : ∀ name, name ∈ reified.definitions.names ↔
    (∃ mention, context.Reached type mention ∧ mention.name = name) ∨ name ∈ context.grammar.names
  /-- A data type has the productions of its constructors. -/
  data : ∀ name, context.Reached type (.dataRef name) → ∃ declared constructors choice,
    context.registry.lookupData? name = some declared ∧
    context.registry.constructorsOf context.store name = some constructors ∧
    reified.definitions.get? name = some choice ∧
    choice.subject = .dataRef name (declared.parameters.map Ty.symbol) ∧
    ∀ production, production ∈ choice.alternatives ↔
      ∃ constructor ∈ constructors, constructor.production choice.subject = production
  /-- An alias has the production of its body. -/
  alias_ : ∀ name, context.Reached type (.aliasRef name) → ∃ declared body choice,
    context.registry.lookupAlias? name = some declared ∧
    context.store.body? declared = some body ∧
    reified.definitions.get? name = some choice ∧
    choice.subject = .aliasRef name (declared.parameters.map Ty.symbol) ∧
    ∀ production, production ∈ choice.alternatives ↔
      production = .ofAlias choice.subject body.symbol
  /-- A nonterminal has its rules in the grammar and in all layers of the registry. -/
  sort : ∀ name, context.Reached type (.sort name) → ∃ choice,
    reified.definitions.get? name = some choice ∧ choice.subject = .sort name ∧
    ∀ rule, rule ∈ choice.alternatives ↔ rule ∈ context.grammar.alternativesOf name ∨
      ∃ layer ∈ context.registry.layers, rule ∈ layer.rules.alternativesOf name
  /-- What has not been reached is taken over from the grammar. -/
  others : ∀ name, (∀ mention, context.Reached type mention → mention.name ≠ name) →
    reified.definitions.get? name = context.grammar.get? name

section Reached

variable {context : Context} {type : Ty} {mention next : Mention} {entry : Entry}

/-- What is reached lies among some names if the type and the expansions of these mention no
others. -/
theorem Reached.mem_of_closed {mentions : List Mention}
    (start : ∀ first ∈ type.symbol.mentions, first ∈ mentions)
    (closed : ∀ user ∈ mentions, ∀ part ∈ context.expansionOf user,
      ∀ next ∈ part.symbol.mentions, next ∈ mentions)
    (reached : context.Reached type mention) : mention ∈ mentions := by
  induction reached with
  | named mem => exact start _ mem
  | expanded _ part_mem mem ih => exact closed _ ih _ part_mem _ mem

/-- The mentions in an entry are those in the types which its expansion goes through. -/
theorem mem_mentions_iff_of_entry (entry_eq : context.entryOf? mention = some entry) :
    next ∈ Symbol.mentionsOfAll entry.symbols ↔
      ∃ part ∈ context.expansionOf mention, next ∈ part.symbol.mentions := by
  cases mention with
  | dataRef name =>
    obtain ⟨declared, declared_eq, rest⟩ := Option.bind_eq_some_iff.mp entry_eq
    obtain ⟨constructors, constructors_eq, rest⟩ := Option.bind_eq_some_iff.mp rest
    obtain rfl := Option.some.inj rest
    simp [expansionOf, declared_eq, constructors_eq, Symbol.mentionsOfAll_eq, Field.map,
      Field.mentions_symbol, or_and_right, exists_or]
  | aliasRef name =>
    obtain ⟨declared, declared_eq, rest⟩ := Option.bind_eq_some_iff.mp entry_eq
    obtain ⟨body, body_eq, rest⟩ := Option.bind_eq_some_iff.mp rest
    obtain rfl := Option.some.inj rest
    simp [expansionOf, declared_eq, body_eq, Symbol.mentionsOfAll_eq, or_and_right, exists_or]
  | sort name =>
    obtain rfl := Option.some.inj entry_eq
    simp [expansionOf, Symbol.mentionsOfAll]

/-- What is met through entries is reached. -/
theorem Meets.reached (meets : context.Meets type.symbol.mentions mention) :
    context.Reached type mention := by
  obtain ⟨first, mem, path⟩ := meets
  induction path with
  | refl => exact .named mem
  | tail _ leads ih =>
    obtain ⟨entry, entry_eq, next_mem⟩ := leads
    obtain ⟨part, part_mem, next_mem⟩ := (mem_mentions_iff_of_entry entry_eq).mp next_mem
    exact ih.expanded part_mem next_mem

end Reached

end Context

section Collects

variable {context : Context} {type : Ty} {progress : Progress} {done : List (Mention × Entry)}

/-- When nothing is being expanded, everything which is reached has been recorded, provided that no
name which has an entry is reached in another use. -/
theorem Explored.exists_mem_of_unshadowed
    (explored : Explored context type.symbol.mentions [] done progress)
    (visited : ∀ mention ∈ type.symbol.mentions, mention.name ∈ progress.visited)
    (unshadowed : ∀ ⦃found other⦄, context.Reached type found → context.Reached type other →
      context.entryOf? found ≠ none → found.name = other.name → found = other) {mention : Mention}
    (reached : context.Reached type mention) : ∃ entry, (mention, entry) ∈ done := by
  have recorded {mention : Mention} (reached : context.Reached type mention)
      (mem : mention.name ∈ progress.visited) : ∃ entry, (mention, entry) ∈ done := by
    have name_mem := explored.visited_iff.mp mem
    rw [List.nil_append, List.map_map] at name_mem
    obtain ⟨⟨other, entry⟩, found_mem, name_eq⟩ := List.mem_map.mp name_mem
    obtain ⟨meets, entry_eq⟩ := explored.entry_eq _ found_mem
    obtain rfl := unshadowed meets.reached reached (by simp [entry_eq]) name_eq
    exact ⟨entry, found_mem⟩
  induction reached with
  | named mem => exact recorded (.named mem) (visited _ mem)
  | expanded reached part_mem mem ih =>
    obtain ⟨entry, found_mem⟩ := ih
    refine recorded (reached.expanded part_mem mem) (explored.closed _ found_mem _ ?_)
    exact (Context.mem_mentions_iff_of_entry (explored.entry_eq _ found_mem).2).mpr
      ⟨_, part_mem, mem⟩

/-- When nothing is being expanded, everything which is reached has been recorded. -/
theorem Explored.exists_mem_of_reached
    (explored : Explored context type.symbol.mentions [] done progress)
    (visited : ∀ mention ∈ type.symbol.mentions, mention.name ∈ progress.visited)
    (unambiguous : context.Unambiguous type) {mention : Mention}
    (reached : context.Reached type mention) : ∃ entry, (mention, entry) ∈ done :=
  explored.exists_mem_of_unshadowed visited
    (fun _ _ found other _ name_eq => unambiguous found other name_eq) reached

/-- What a name is reified as: its entry if it is reached, and what the grammar has otherwise. -/
theorem get?_of_reify {reified : Reified} (reify_eq : type.reify context = .ok reified)
    (unambiguous : context.Unambiguous type) :
    reified.symbol = type.symbol ∧
    (∀ ⦃mention⦄, context.Reached type mention → ∃ entry, context.entryOf? mention = some entry ∧
      reified.definitions.get? mention.name = some entry.choice) ∧
    ∀ ⦃name⦄, (∀ mention, context.Reached type mention → mention.name ≠ name) →
      reified.definitions.get? name = context.grammar.get? name := by
  have ends := reify_ends context type
  rw [reify_eq] at ends
  obtain ⟨symbol_eq, done, progress, explored, visited, definitions_eq⟩ := ends
  obtain ⟨known, unknown⟩ := explored.definitions context.grammar
  rw [← definitions_eq] at known unknown
  refine ⟨symbol_eq, fun mention reached => ?_, fun name unreached => ?_⟩
  · obtain ⟨entry, mem⟩ := explored.exists_mem_of_reached visited unambiguous reached
    exact ⟨entry, (explored.entry_eq _ mem).2, known _ mem⟩
  · exact unknown name fun found mem => unreached found.1 (explored.entry_eq _ mem).1.reached

/-- Reifying a type collects exactly the definitions of the names which are reached from it, and
what the grammar has for others. -/
theorem reify_collects {reified : Reified} (reify_eq : type.reify context = .ok reified)
    (unambiguous : context.Unambiguous type) : context.Collects type reified := by
  obtain ⟨symbol_eq, found, others⟩ := get?_of_reify reify_eq unambiguous
  refine ⟨symbol_eq, fun name => ?_, fun name reached => ?_, fun name reached => ?_,
    fun name reached => ?_, fun _ unreached => others unreached⟩
  · rw [Table.mem_names_iff, Table.mem_names_iff]
    by_cases reached : ∃ mention, context.Reached type mention ∧ mention.name = name
    · obtain ⟨mention, reached', rfl⟩ := reached
      obtain ⟨entry, -, get?_eq⟩ := found reached'
      simp only [get?_eq, ne_eq, reduceCtorEq, not_false_eq_true, true_iff]
      exact .inl ⟨mention, reached', rfl⟩
    · rw [others fun mention reached' same => reached ⟨mention, reached', same⟩]
      exact ⟨.inr, fun either => either.resolve_left reached⟩
  · obtain ⟨entry, entry_eq, get?_eq⟩ := found reached
    obtain ⟨declared, declared_eq, rest⟩ := Option.bind_eq_some_iff.mp entry_eq
    obtain ⟨constructors, constructors_eq, rest⟩ := Option.bind_eq_some_iff.mp rest
    obtain rfl := Option.some.inj rest
    refine ⟨declared, constructors, _, declared_eq, constructors_eq, get?_eq, ?_, ?_⟩
    · simp [Entry.choice]
    · simp [Entry.choice]
  · obtain ⟨entry, entry_eq, get?_eq⟩ := found reached
    obtain ⟨declared, declared_eq, rest⟩ := Option.bind_eq_some_iff.mp entry_eq
    obtain ⟨body, body_eq, rest⟩ := Option.bind_eq_some_iff.mp rest
    obtain rfl := Option.some.inj rest
    refine ⟨declared, body, _, declared_eq, body_eq, get?_eq, ?_, ?_⟩
    · simp [Entry.choice]
    · simp [Entry.choice]
  · obtain ⟨entry, entry_eq, get?_eq⟩ := found reached
    obtain rfl := Option.some.inj entry_eq
    refine ⟨_, get?_eq, rfl, fun rule => ?_⟩
    rw [Entry.choice, OrderedSet.ofList_toList, rulesOf, OrderedSet.mem_union,
      Registry.mem_rulesOf]

end Collects

/-! Expressions with arguments: the registry inherits the declaration of literals and some rules. -/

namespace Calling

def literal : AliasRef Ty := ⟨0, "Literal", []⟩

def empty : DataRef Ty := ⟨0, "Empty", []⟩

def expression : DataRef Ty := ⟨1, "Expression", [.parameter "T" (.prim .value)]⟩

def constant : Constructor Ty := ⟨2, expression, "constant", [⟨none, .aliasRef literal⟩], ∅⟩

def call : Constructor Ty :=
  ⟨3, expression, "call", [⟨some "callee", .dataRef ⟨4, "Expression", [.dataRef empty]⟩⟩,
    ⟨some "arguments", .sort "Arguments"⟩], ∅⟩

def rule (name : String) (symbols : List Symbol) : Production where
  subject := .sort name
  symbols := symbols

def context : Context where
  store := ⟨5, #[some (.tuple [⟨none, .prim .int⟩, ⟨none, .dataRef expression⟩])]⟩
  registry := {
    own := {
      declarations := ⟨[("Empty", .dataRef empty), ("Expression", .dataRef expression)], by decide⟩
      constructors := ⟨[("Expression", [constant, call])], by decide⟩
      rules := ⟨[("Arguments", ⟨.sort "Arguments", .ofList [rule "Arguments" []]⟩)], by decide⟩ }
    inherited := [{
      declarations := ⟨[("Literal", .aliasRef literal)], by decide⟩
      rules := ⟨[("Arguments", ⟨.sort "Arguments",
        .ofList [rule "Arguments" [.sort "Arguments", .prim .int]]⟩)], by decide⟩ }] }
  grammar := ⟨[("Arguments", ⟨.sort "Arguments", .ofList [rule "Arguments" [.prim .str]]⟩),
    ("Blank", ⟨.sort "Blank", .ofList [rule "Blank" [.prim .str]]⟩)], by decide⟩

/-- The type which is reified. -/
def expressionOfEmpty : Ty := .dataRef ⟨4, "Expression", [.dataRef empty]⟩

def mentions : List Mention :=
  [.dataRef "Expression", .dataRef "Empty", .aliasRef "Literal", .sort "Arguments"]

theorem unambiguous : context.Unambiguous expressionOfEmpty := by
  have closed {mention : Mention} (reached : context.Reached expressionOfEmpty mention) :
      mention ∈ mentions := reached.mem_of_closed (by decide) (by decide)
  have distinct : ∀ mention ∈ mentions, ∀ other ∈ mentions,
      mention.name = other.name → mention = other := by decide
  exact fun mention other reached other_reached =>
    distinct mention (closed reached) other (closed other_reached)

theorem expressionOfEmpty_collects : ∃ reified,
    expressionOfEmpty.reify context = .ok reified ∧ context.Unambiguous expressionOfEmpty ∧
      reified.definitions.names = ["Arguments", "Blank", "Empty", "Expression", "Literal"] ∧
      context.Collects expressionOfEmpty reified :=
  ⟨_, rfl, unambiguous, rfl, reify_collects rfl unambiguous⟩

end Calling

end Reification.Reify
