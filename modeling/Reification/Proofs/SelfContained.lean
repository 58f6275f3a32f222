import Reification.Proofs.Collected

/-!
# Self-contained values

A value is self-contained if every name which it mentions and which a registry knows has an entry in
its definitions.  Whatever is mentioned in the symbol of a reified type or in a production of a data
type or an alias has an entry.  The rules of nonterminals are recorded as they are, without visiting
the names in them, so that a value is self-contained just if the names in its rules have entries.
-/

namespace Reification

/-- The mentions in a production. -/
def Production.mentions (production : Production) : List Mention :=
  production.subject.mentions ++ Symbol.mentionsOfAll production.symbols

/-- Whether a registry has a declaration or rules of a name in some layer. -/
def Registry.Knows (registry : Registry) (name : String) : Prop :=
  registry.lookup? name ≠ none ∨ ∃ rule, rule ∈ registry.rulesOf name

namespace Reified

/-- Whether a production is an alternative in the entry of a nonterminal. -/
def HasRule (reified : Reified) (rule : Production) : Prop :=
  ∃ name choice, reified.definitions.get? name = some choice ∧ choice.subject = .sort name ∧
    rule ∈ choice.alternatives

/-- Whether a production is an alternative in the entry of a data type or an alias. -/
def HasAlternative (reified : Reified) (production : Production) : Prop :=
  ∃ name choice, reified.definitions.get? name = some choice ∧ choice.subject ≠ .sort name ∧
    production ∈ choice.alternatives

/-- Whether every name in the symbol or in a production which a registry knows has an entry. -/
def SelfContained (reified : Reified) (registry : Registry) : Prop :=
  ∀ mention, (mention ∈ reified.symbol.mentions ∨ ∃ name choice production,
      reified.definitions.get? name = some choice ∧ production ∈ choice.alternatives ∧
        mention ∈ production.mentions) →
    registry.Knows mention.name → mention.name ∈ reified.definitions.names

end Reified

namespace Reify

section SelfContained

variable {context : Context} {root : List Mention} {type : Ty} {reified : Reified}

/-- The productions of a data type or an alias mention the name itself and what its expansion goes
through. -/
theorem Context.mem_mentions_of_production {mention next : Mention} {entry : Entry}
    {production : Production} (entry_eq : context.entryOf? mention = some entry)
    (declared : mention.declared? ≠ none) (mem : production ∈ entry.choice.alternatives)
    (next_mem : next ∈ production.mentions) :
    next = mention ∨ next ∈ Symbol.mentionsOfAll entry.symbols := by
  cases mention with
  | dataRef name =>
    obtain ⟨reference, -, rest⟩ := Option.bind_eq_some_iff.mp entry_eq
    obtain ⟨constructors, -, rest⟩ := Option.bind_eq_some_iff.mp rest
    obtain rfl := Option.some.inj rest
    obtain ⟨constructor, constructor_mem, rfl⟩ := List.mem_map.mp (OrderedSet.mem_ofList.mp mem)
    rw [Symbol.mentionsOfAll_append, List.mem_append]
    rcases List.mem_append.mp next_mem with next_mem | next_mem
    · rcases List.mem_append.mp next_mem with next_mem | next_mem
      · exact .inr (.inl next_mem)
      · exact .inl (List.mem_singleton.mp next_mem)
    · rw [Constructor.production, Symbol.mentionsOfAll_eq] at next_mem
      obtain ⟨symbol, symbol_mem, next_mem⟩ := List.mem_flatMap.mp next_mem
      exact .inr (.inr (Symbol.mem_mentionsOfAll
        (List.mem_flatMap.mpr ⟨constructor, constructor_mem, symbol_mem⟩) next_mem))
  | aliasRef name =>
    obtain ⟨reference, -, rest⟩ := Option.bind_eq_some_iff.mp entry_eq
    obtain ⟨body, -, rest⟩ := Option.bind_eq_some_iff.mp rest
    obtain rfl := Option.some.inj rest
    obtain rfl := List.mem_singleton.mp (OrderedSet.mem_ofList.mp mem)
    rw [Symbol.mentionsOfAll_append, List.mem_append]
    rcases List.mem_append.mp next_mem with next_mem | next_mem
    · rcases List.mem_append.mp next_mem with next_mem | next_mem
      · exact .inr (.inl next_mem)
      · exact .inl (List.mem_singleton.mp next_mem)
    · exact .inr (.inr next_mem)
  | sort name => exact absurd rfl declared

/-- When nothing is being expanded, the definitions have entries of the visited names. -/
theorem Explored.mem_names_iff {progress : Progress} {done : List (Mention × Entry)}
    (explored : Explored context root [] done progress) {name : String} :
    name ∈ (progress.definitions ∅).names ↔ name ∈ progress.visited := by
  obtain ⟨known, others⟩ := explored.definitions ∅
  rw [Table.mem_names_iff, explored.visited_iff, List.nil_append, List.map_map, List.mem_map]
  constructor
  · intro some_choice
    by_contra unvisited
    refine some_choice (others name fun found mem same => unvisited ⟨found, mem, same⟩)
  · rintro ⟨found, mem, rfl⟩
    simp [known found mem]

/-- When nothing is being expanded, every choice is that of a name which has been recorded. -/
theorem Explored.exists_mem_of_get? {progress : Progress} {done : List (Mention × Entry)}
    (explored : Explored context root [] done progress) {name : String} {choice : Choice}
    (get?_eq : (progress.definitions ∅).get? name = some choice) :
    ∃ found ∈ done, found.1.name = name ∧ found.2.choice = choice := by
  obtain ⟨known, others⟩ := explored.definitions ∅
  by_cases recorded : ∃ found ∈ done, found.1.name = name
  · obtain ⟨found, mem, rfl⟩ := recorded
    exact ⟨found, mem, rfl, Option.some.inj ((known found mem).symm.trans get?_eq)⟩
  · rw [others name fun found mem same => recorded ⟨found, mem, same⟩] at get?_eq
    cases get?_eq

/-- The names in the symbol of a reified type and in the productions of data types and aliases have
entries.  The value is self-contained just if those in the rules of nonterminals have. -/
theorem reify_selfContained_iff (grammar_eq : context.grammar = ∅)
    (reify_eq : type.reify context = .ok reified) :
    (∀ mention ∈ reified.symbol.mentions, mention.name ∈ reified.definitions.names) ∧
    (∀ production, reified.HasAlternative production →
      ∀ mention ∈ production.mentions, mention.name ∈ reified.definitions.names) ∧
    (reified.SelfContained context.registry ↔ ∀ rule, reified.HasRule rule →
      ∀ mention ∈ rule.mentions, context.registry.Knows mention.name →
        mention.name ∈ reified.definitions.names) := by
  have ends := reify_ends context type
  rw [reify_eq] at ends
  obtain ⟨symbol_eq, done, progress, explored, visited, definitions_eq⟩ := ends
  rw [grammar_eq] at definitions_eq
  have root_mem : ∀ mention ∈ reified.symbol.mentions,
      mention.name ∈ reified.definitions.names := fun mention mem => by
    rw [definitions_eq, explored.mem_names_iff]
    exact visited mention (symbol_eq ▸ mem)
  have alternative_mem : ∀ production, reified.HasAlternative production →
      ∀ mention ∈ production.mentions, mention.name ∈ reified.definitions.names := by
    rintro production ⟨name, choice, get?_eq, no_sort, production_mem⟩ next next_mem
    rw [definitions_eq] at get?_eq
    obtain ⟨⟨mention, entry⟩, found_mem, rfl, rfl⟩ := explored.exists_mem_of_get? get?_eq
    have entry_eq := (explored.entry_eq _ found_mem).2
    have declared : mention.declared? ≠ none := by
      cases mention with
      | dataRef | aliasRef => exact Option.some_ne_none _
      | sort name =>
        obtain rfl := Option.some.inj entry_eq
        exact absurd rfl no_sort
    rw [definitions_eq, explored.mem_names_iff]
    rcases Context.mem_mentions_of_production entry_eq declared production_mem next_mem with
      rfl | next_mem
    · exact explored.visited_iff.mpr (List.mem_map_of_mem (List.mem_map_of_mem found_mem))
    · exact explored.closed _ found_mem next next_mem
  refine ⟨root_mem, alternative_mem, ?_, ?_⟩
  · rintro selfContained rule ⟨name, choice, get?_eq, -, rule_mem⟩ mention mem
    exact selfContained mention (.inr ⟨name, choice, rule, get?_eq, rule_mem, mem⟩)
  · rintro rules_mem mention (mem | ⟨name, choice, production, get?_eq, production_mem, mem⟩) knows
    · exact root_mem mention mem
    · by_cases sort_eq : choice.subject = .sort name
      · exact rules_mem production ⟨name, choice, get?_eq, sort_eq, production_mem⟩ mention mem
          knows
      · exact alternative_mem production ⟨name, choice, get?_eq, sort_eq, production_mem⟩ mention
          mem

end SelfContained

/-! A statement is an expression, and expressions are sums of expressions. -/

namespace Grammar

def sum : Production where
  subject := .sort "Expression"
  symbols := [.sort "Expression", .sort "Expression"]

def evaluation : Production where
  subject := .sort "Statement"
  symbols := [.sort "Expression"]

def context : Context where
  store := {}
  registry := { own := {
    rules := ⟨[("Expression", ⟨.sort "Expression", .ofList [sum]⟩),
      ("Statement", ⟨.sort "Statement", .ofList [evaluation]⟩)], by decide⟩ } }

/-- What lists of expressions are reified to. -/
def expressions : Reified where
  symbol := .list (.sort "Expression")
  definitions := ⟨[("Expression", ⟨.sort "Expression", .ofList [sum]⟩)], by decide⟩

theorem expressions_selfContained : context.grammar = ∅ ∧
    (Ty.list (.sort "Expression")).reify context = .ok expressions ∧
      expressions.SelfContained context.registry := by
  have reify_eq : (Ty.list (.sort "Expression")).reify context = .ok expressions := rfl
  refine ⟨rfl, reify_eq, (reify_selfContained_iff rfl reify_eq).2.2.mpr ?_⟩
  rintro rule ⟨name, choice, get?_eq, -, rule_mem⟩ mention mem -
  obtain ⟨rfl, rfl⟩ : name = "Expression" ∧ choice = ⟨.sort "Expression", .ofList [sum]⟩ := by
    simpa [expressions] using Table.get?_eq_some_iff.mp get?_eq
  obtain rfl := List.mem_singleton.mp (OrderedSet.mem_ofList.mp rule_mem)
  have all : ∀ mention ∈ sum.mentions, mention.name ∈ expressions.definitions.names := by decide
  exact all mention mem

/-- What statements are reified to. -/
def statement : Reified where
  symbol := .sort "Statement"
  definitions := ⟨[("Statement", ⟨.sort "Statement", .ofList [evaluation]⟩)], by decide⟩

/-- Expressions have a rule and are mentioned in that of statements, but they have no entry. -/
theorem statement_not_selfContained : context.grammar = ∅ ∧
    (Ty.sort "Statement").reify context = .ok statement ∧
      ¬statement.SelfContained context.registry := by
  refine ⟨rfl, rfl, fun selfContained => ?_⟩
  have knows : context.registry.Knows "Expression" := .inr ⟨sum, Registry.mem_rulesOf.mpr
    ⟨_, List.mem_cons_self .., OrderedSet.mem_ofList.mpr (List.mem_singleton_self _)⟩⟩
  have mem := selfContained (.sort "Expression") (.inr ⟨"Statement", _, evaluation, rfl,
    OrderedSet.mem_ofList.mpr (List.mem_singleton_self _), by decide⟩) knows
  revert mem
  decide

end Grammar

end Reify

end Reification
