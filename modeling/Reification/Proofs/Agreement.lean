import Reification.Proofs.Gathering

/-!
# Agreement of registries

All entries of well-formed definitions are reconstructed in one registry, each name from the point
of the graph at which it is met first.  The registry agrees with those in which only the subject of
one entry has been reconstructed: whatever one of them declares is declared as an equal type, with
equal constructors in the same order, and every nonterminal has the same rules.
-/

namespace Reification

open Reconstruct
open Reify (Context)

/-- Whether what a registry declares is declared in the same way by another one, whose references
have been made before. -/
structure World.Within (part whole : World) : Prop where
  declared : ∀ name type, part.registry.lookup? name = some type →
    ∃ other, whole.registry.lookup? name = some other ∧ part.store.same type other = some true
  constructors : ∀ name ∈ part.registry.declaredNames, ∃ constructors others,
    part.registry.constructorsOf part.store name = some constructors ∧
      whole.registry.constructorsOf whole.store name = some others ∧
      List.Forall₂ (fun constructor other =>
        part.store.sameConstructor constructor other = some true ∧
          constructor.attributes = other.attributes) constructors others
  rules : ∀ name ∈ part.registry.ruleNames, name ∈ whole.registry.ruleNames ∧
    part.registry.rulesOf name = whole.registry.rulesOf name

/-- Whether the constructors of a name in a registry equal those in another one, one by one. -/
def World.compared (part whole : World) (name : String) : Option Bool := do
  let constructors ← part.registry.constructorsOf part.store name
  let others ← whole.registry.constructorsOf whole.store name
  (constructors.zip others).allM fun (constructor, other) =>
    part.store.sameConstructor constructor other

theorem World.Within.compared_eq {part whole : World} {name : String} (within : part.Within whole)
    (mem : name ∈ part.registry.declaredNames) : part.compared whole name = some true := by
  obtain ⟨constructors, others, constructors_eq, others_eq, agree⟩ := within.constructors name mem
  simp only [World.compared, constructors_eq, others_eq, Option.bind_eq_bind, Option.bind_some]
  clear constructors_eq others_eq
  induction agree with
  | nil => rfl
  | cons head _ ih => simp [head.1, ih]

/-- Whether the registry of all entries agrees with the registries of the entries: what one of these
declares or knows it declares or knows in the same way, and it declares and knows nothing else. -/
structure Definitions.Agrees (definitions : Definitions) (whole : World) : Prop where
  within : ∀ key choice, definitions.get? key = some choice →
    (Reified.reconstruct ⟨choice.subject, definitions⟩).Meets { store := whole.store }
      (fun _ part => part.Within whole) fun _ _ => False
  declaredNames : ∀ name ∈ whole.registry.declaredNames, ∃ key choice,
    definitions.get? key = some choice ∧
      (Reified.reconstruct ⟨choice.subject, definitions⟩).Meets { store := whole.store }
        (fun _ part => name ∈ part.registry.declaredNames) fun _ _ => False
  ruleNames : ∀ name ∈ whole.registry.ruleNames, ∃ key choice,
    definitions.get? key = some choice ∧
      (Reified.reconstruct ⟨choice.subject, definitions⟩).Meets { store := whole.store }
        (fun _ part => name ∈ part.registry.ruleNames) fun _ _ => False

/-- A registry of all entries does not agree with that of an entry in which some constructors
differ. -/
theorem Definitions.not_agrees {definitions : Definitions} {key : String} {choice : Choice}
    (get?_eq : definitions.get? key = some choice) (name : String)
    (differ : definitions.declareAll.Meets {} (fun _ whole =>
      (Reified.reconstruct ⟨choice.subject, definitions⟩).Meets { store := whole.store }
        (fun _ part => name ∈ part.registry.declaredNames ∧ part.compared whole name = some false)
        fun _ _ => False) fun _ _ => False) :
    ¬definitions.declareAll.Meets {} (fun _ whole => definitions.Agrees whole)
      fun _ _ => False := by
  intro meets
  refine (meets.and differ).elim (fun _ whole ⟨agrees, differ⟩ => ?_) fun _ _ => And.left
  refine ((agrees.within key choice get?_eq).and differ).elim
    (fun _ part ⟨within, mem, compared_eq⟩ => ?_) fun _ _ => And.left
  cases (within.compared_eq mem).symm.trans compared_eq

namespace Reconstruct.Gathers

variable {definitions : Definitions} {symbols parts : List Symbol} {symbol : Symbol}
  {world whole part : World} {scope wider : Scope} {name : String}

section Names

variable (gathers : Gathers definitions symbols world scope)

include gathers

theorem mem_declaredNames_iff :
    name ∈ world.registry.declaredNames ↔ world.registry.lookup? name ≠ none :=
  Registry.mem_declaredNames_iff gathers.orderly.inherited_eq

theorem some_alternative (declared : world.registry.lookup? name ≠ none) :
    (definitions.alternativesOf name).first? ≠ none := by
  obtain ⟨type, lookup_eq⟩ := Option.ne_none_iff_exists'.mp declared
  cases gathers.sound.declares lookup_eq with
  | data _ meaning_eq =>
    exact fun none_eq => nomatch meaning_eq.symm.trans (meaning_eq_none none_eq)
  | alias_ _ is_alias => exact first?_of_isAlias is_alias

/-- What is reached from one of the symbols and has alternatives is declared. -/
theorem declared_of_reaches (mem : symbol ∈ symbols)
    (reaches : Reaches definitions.alternativesOf symbol name)
    (some_alternative : (definitions.alternativesOf name).first? ≠ none) :
    world.registry.lookup? name ≠ none :=
  gathers.complete.declared_of_reaches (gathers.covered symbol mem) reaches some_alternative

/-- The rules of a nonterminal which is met from one of the symbols are known. -/
theorem rules_of_meets (mem : symbol ∈ symbols)
    (met : MeetsSort definitions.alternativesOf symbol name)
    (some_alternative : (definitions.alternativesOf name).first? ≠ none) :
    world.registry.own.rules.get? name ≠ none :=
  gathers.complete.rules_of_meets (gathers.covered symbol mem) gathers.orderly.inherited_eq met
    some_alternative

/-- A declared name which is no alias is a data type. -/
theorem exists_data (no_alias : ¬IsAlias definitions.alternativesOf name)
    (declared : world.registry.lookup? name ≠ none) :
    ∃ reference, world.registry.lookup? name = some (.dataRef reference) := by
  obtain ⟨type, lookup_eq⟩ := Option.ne_none_iff_exists'.mp declared
  cases gathers.sound.declares lookup_eq with
  | data => exact ⟨_, lookup_eq⟩
  | alias_ _ is_alias => exact absurd is_alias no_alias

/-- The nonterminals which are met have the rules of the definitions. -/
theorem rulesOf_eq (mem : name ∈ world.registry.ruleNames) :
    world.registry.rulesOf name = definitions.alternativesOf name := by
  rw [Registry.rulesOf_of_inherited_eq gathers.orderly.inherited_eq]
  exact (gathers.orderly.rules_eq (Table.mem_names_iff.mp mem)).2

section Subset

variable (others : Gathers definitions parts part wider) (subset : parts ⊆ symbols)

include others subset

/-- What has been declared for some symbols is declared if there are further ones. -/
theorem declared_of_subset (declared : part.registry.lookup? name ≠ none) :
    world.registry.lookup? name ≠ none := by
  obtain ⟨symbol, mem, reaches⟩ := others.reached declared
  exact gathers.declared_of_reaches (subset mem) reaches (others.some_alternative declared)

/-- The nonterminals which are met from some symbols are met if there are further ones. -/
theorem ruleNames_subset (mem : name ∈ part.registry.ruleNames) :
    name ∈ world.registry.ruleNames := by
  have some_rule := Table.mem_names_iff.mp mem
  obtain ⟨symbol, symbol_mem, met⟩ := others.met some_rule
  exact Table.mem_names_iff.mpr
    (gathers.rules_of_meets (subset symbol_mem) met (others.orderly.rules_eq some_rule).1)

end Subset

end Names

section Comparison

variable (wellFormed : definitions.WellFormed) (gathers : Gathers definitions symbols whole scope)
  (part_gathers : Gathers definitions parts part wider) (le : Scope.bare scope.toHeap ≤ wider)
  (grows : whole.store.Grows part.store)

include wellFormed gathers part_gathers le grows

/-- Every alias is declared again as an equal one. -/
theorem agree (name : String) : Context.Agree whole.context part name := by
  refine opens_induction (fun _ _ (_ : True) _ => trivial)
    (fun name _ => opens_grounded wellFormed name) (fun name _ ih => ?_) trivial
  refine gathers.sound.agree part_gathers.sound rfl le (gathers.sound.store_eq ▸ grows) id id
    fun is_alias leaf mem => ih leaf ?_
  exact opens_of_leaf (fun _ _ (_ : True) _ => trivial)
    (fun name _ => opens_grounded wellFormed name) (fun name _ => plain_solves wellFormed name)
    trivial ⟨first?_of_isAlias is_alias, .inr ⟨is_alias, mem⟩⟩

/-- What shows the same in both registries is equal. -/
theorem same_of_denotes {type other : Ty} {tree : Tree} (denotes : scope.Denotes other tree)
    (part_denotes : wider.Denotes type tree) : part.store.same type other = some true :=
  Store.same_symm (Context.same_of_agree part_gathers.sound le (gathers.sound.store_eq ▸ grows)
    (fun name (_ : True) => agree wellFormed gathers part_gathers le grows name)
    (gathers.sound.denotes_context denotes) part_denotes fun _ _ => trivial)

/-- A name which is declared in both registries is declared as equal types. -/
theorem same_of_declared {type other : Ty} (declared : part.registry.lookup? name = some type)
    (other_declared : whole.registry.lookup? name = some other) :
    part.store.same type other = some true := by
  obtain ⟨tree, meaning_eq, part_denotes⟩ := part_gathers.sound.denotes declared False.elim
  obtain ⟨_, other_eq, denotes⟩ := gathers.sound.denotes other_declared False.elim
  obtain rfl := Option.some.inj (meaning_eq.symm.trans other_eq)
  exact same_of_denotes wellFormed gathers part_gathers le grows denotes part_denotes

/-- A name which is declared in both registries has equal constructors in the same order. -/
theorem constructors_agree (declared : part.registry.lookup? name ≠ none)
    (other_declared : whole.registry.lookup? name ≠ none) :
    List.Forall₂ (fun constructor other =>
        part.store.sameConstructor constructor other = some true ∧
          constructor.attributes = other.attributes)
      (part.registry.own.constructorsOf name) (whole.registry.own.constructorsOf name) := by
  by_cases is_alias : IsAlias definitions.alternativesOf name
  · rw [part_gathers.sound.constructorsOf_of_isAlias is_alias,
      gathers.sound.constructorsOf_of_isAlias is_alias]
    exact .nil
  · obtain ⟨reference, reference_eq⟩ := part_gathers.exists_data is_alias declared
    obtain ⟨other, other_eq⟩ := gathers.exists_data is_alias other_declared
    refine Heap.forall₂_trans ?_ (part_gathers.sound.arranged reference_eq).flip
      (gathers.sound.arranged other_eq)
    rintro constructor mem production - other other_mem ⟨matches_, attributes_eq⟩
      ⟨other_matches, other_attributes_eq⟩
    refine ⟨?_, attributes_eq.symm.trans other_attributes_eq⟩
    have denotes := gathers.sound.constructor_denotes other_mem other_matches
    rw [Option.some.inj (other_matches.1.symm.trans matches_.1)] at denotes
    exact same_of_denotes wellFormed gathers part_gathers le grows denotes
      (part_gathers.sound.constructor_denotes mem matches_)

/-- The registry in which a symbol has been reconstructed is within that in which the symbol and
further ones have been. -/
theorem within (subset : parts ⊆ symbols) : part.Within whole where
  declared name type type_eq := by
    have declared : part.registry.lookup? name ≠ none := by simp [type_eq]
    obtain ⟨other, other_eq⟩ :=
      Option.ne_none_iff_exists'.mp (gathers.declared_of_subset part_gathers subset declared)
    exact ⟨other, other_eq,
      same_of_declared wellFormed gathers part_gathers le grows type_eq other_eq⟩
  constructors name mem := by
    have declared := part_gathers.mem_declaredNames_iff.mp mem
    exact ⟨_, _, Registry.constructorsOf_of_inherited_eq part_gathers.sound.inherited_eq _ _,
      Registry.constructorsOf_of_inherited_eq gathers.sound.inherited_eq _ _,
      constructors_agree wellFormed gathers part_gathers le grows declared
        (gathers.declared_of_subset part_gathers subset declared)⟩
  rules name mem := by
    have other_mem := gathers.ruleNames_subset part_gathers subset mem
    exact ⟨other_mem, by rw [part_gathers.rulesOf_eq mem, gathers.rulesOf_eq other_mem]⟩

end Comparison

/-- A further symbol is reconstructed in a registry of its own. -/
theorem reconstruct_meets (wellFormed : definitions.WellFormed) (bounded : definitions.Bounded)
    (gathers : Gathers definitions symbols whole scope) (contains : definitions.Contains symbol) :
    (Reified.reconstruct ⟨symbol, definitions⟩).Meets { store := whole.store }
      (fun _ part => ∃ wider, Scope.bare scope.toHeap ≤ wider ∧ whole.store.Grows part.store ∧
        Gathers definitions [symbol] part wider) fun _ _ => False := by
  have meets := (gathers_fresh definitions scope.toHeap).typeOf_meets wellFormed bounded contains
  rw [gathers.sound.store_eq] at meets
  exact meets.mono (fun _ _ ⟨grows, wider, le, part_gathers⟩ => ⟨wider, le, grows, part_gathers⟩)
    fun _ _ => id

/-- A registry in which the subjects of all entries have been reconstructed agrees with the
registries of the entries. -/
theorem agrees (wellFormed : definitions.WellFormed) (bounded : definitions.Bounded)
    (gathers : Gathers definitions (definitions.values.map (·.subject)) whole scope) :
    definitions.Agrees whole := by
  have part_meets {key : String} {choice : Choice} (get?_eq : definitions.get? key = some choice) :=
    gathers.reconstruct_meets wellFormed bounded (.inl ⟨key, choice, get?_eq, rfl⟩)
  have exists_entry {symbol : Symbol} (mem : symbol ∈ definitions.values.map (·.subject)) :
      ∃ key choice, definitions.get? key = some choice ∧ choice.subject = symbol := by
    obtain ⟨choice, choice_mem, rfl⟩ := List.mem_map.mp mem
    obtain ⟨key, get?_eq⟩ := Table.mem_values_iff.mp choice_mem
    exact ⟨key, choice, get?_eq, rfl⟩
  refine ⟨fun key choice get?_eq => ?_, fun name mem => ?_, fun name mem => ?_⟩
  · refine (part_meets get?_eq).mono (fun _ part => ?_) fun _ _ => id
    rintro ⟨wider, le, grows, part_gathers⟩
    refine within wellFormed gathers part_gathers le grows ?_
    rintro _ (_ | ⟨_, ⟨⟩⟩)
    exact List.mem_map_of_mem (Table.mem_values_iff.mpr ⟨key, get?_eq⟩)
  · have declared := gathers.mem_declaredNames_iff.mp mem
    obtain ⟨symbol, symbol_mem, reaches⟩ := gathers.reached declared
    obtain ⟨key, choice, get?_eq, rfl⟩ := exists_entry symbol_mem
    refine ⟨key, choice, get?_eq, (part_meets get?_eq).mono (fun _ part => ?_) fun _ _ => id⟩
    rintro ⟨wider, -, -, part_gathers⟩
    exact part_gathers.mem_declaredNames_iff.mpr (part_gathers.declared_of_reaches
      (List.mem_singleton_self _) reaches (gathers.some_alternative declared))
  · have some_rule := Table.mem_names_iff.mp mem
    obtain ⟨symbol, symbol_mem, met⟩ := gathers.met some_rule
    obtain ⟨key, choice, get?_eq, rfl⟩ := exists_entry symbol_mem
    refine ⟨key, choice, get?_eq, (part_meets get?_eq).mono (fun _ part => ?_) fun _ _ => id⟩
    rintro ⟨wider, -, -, part_gathers⟩
    exact Table.mem_names_iff.mpr (part_gathers.rules_of_meets
      (List.mem_singleton_self _) met (gathers.orderly.rules_eq some_rule).1)

end Reconstruct.Gathers

/-- All entries of well-formed definitions are reconstructed one after the other without an error if
the formal parameters of the data types to which constructors belong are bounded by name, and the
registry agrees with the registries of the entries. -/
theorem Definitions.declareAll_agrees {definitions : Definitions}
    (wellFormed : definitions.WellFormed) (bounded : definitions.Bounded) :
    definitions.declareAll.Meets {} (fun _ whole => definitions.Agrees whole) fun _ _ => False := by
  have contains : ∀ choice ∈ definitions.values, definitions.Contains choice.subject := by
    intro choice mem
    obtain ⟨key, get?_eq⟩ := Table.mem_values_iff.mp mem
    exact .inl ⟨key, choice, get?_eq, rfl⟩
  have fresh := gathers_fresh definitions
    (.of {} [] (by simp) (by simp) (by simp))
  refine (fresh.forM_meets wellFormed bounded contains).mono ?_ fun _ _ => id
  rintro _ whole ⟨scope, gathers⟩
  exact gathers.agrees wellFormed bounded

/-! A data type with two formal parameters of one name, to one of whose constructors a field of
another data type belongs. -/

def linked.formals (bound : Primitive) : List Symbol :=
  [.parameter "T" (.prim .value), .parameter "T" (.prim bound)]

/-- The second formal parameter has a given bound. -/
def linked (bound : Primitive) : Definitions where
  entries := [
    ("A", ⟨.aliasRef "A" [], ⟨[
      { subject := .aliasRef "A" []
        symbols := [.list (.dataRef "E" [])] }],
      List.pairwise_singleton _ _⟩⟩),
    ("D", ⟨.dataRef "D" (linked.formals bound), ⟨[
      { subject := .dataRef "D" (linked.formals bound)
        name := some "b"
        symbols := [.aliasRef "A" []] },
      { subject := .dataRef "D" (linked.formals bound)
        name := some "c"
        symbols := [.sort "S"] }], by cases bound <;> decide⟩⟩),
    ("E", ⟨.dataRef "E" [], ⟨[
      { subject := .dataRef "E" []
        name := some "e"
        symbols := [.constructor (.dataRef "D" []) "c" [.sort "S"]] }],
      List.pairwise_singleton _ _⟩⟩),
    ("S", ⟨.sort "S", ⟨[{ subject := .sort "S", symbols := [.prim .bool] }],
      List.pairwise_singleton _ _⟩⟩)]
  increasing := by
    simp only [List.pairwise_cons, List.forall_mem_cons]
    decide

theorem linked.mem_names {bound : Primitive} {name : String}
    (some_alternative : ((linked bound).alternativesOf name).first? ≠ none) :
    name ∈ ["A", "D", "E", "S"] :=
  List.mem_toFinset.mp (mem_names_of_first? some_alternative)

theorem linked.eq_of_isAlias {bound : Primitive} {name : String}
    (is_alias : IsAlias (linked bound).alternativesOf name) : name = "A" := by
  have mem := mem_names (first?_of_isAlias is_alias)
  obtain ⟨_, _, subject_eq⟩ := is_alias
  simp only [List.mem_cons, List.not_mem_nil, or_false] at mem
  rcases mem with rfl | rfl | rfl | rfl
  · rfl
  all_goals cases subject_eq

theorem linked.owner_eq {bound : Primitive} {part : Symbol}
    (contains : (linked bound).Contains part) : ∀ owner ∈ part.owners, owner = .dataRef "D" [] := by
  rcases contains with ⟨key, choice, get?_eq, rfl⟩ | ⟨name, part_mem⟩
  · have owners : ∀ choice ∈ (linked bound).values,
        ∀ owner ∈ choice.subject.owners, owner = .dataRef "D" [] := of_decide_eq_true rfl
    exact owners choice (Table.mem_values_iff.mpr ⟨key, get?_eq⟩)
  · have owners : ∀ name ∈ ["A", "D", "E", "S"],
        ∀ part ∈ formalsOf (linked bound).alternativesOf name ++
          contentsOf (linked bound).alternativesOf name,
        ∀ owner ∈ part.owners, owner = .dataRef "D" [] := of_decide_eq_true rfl
    exact owners name (mem_names (first?_of_mem part_mem)) part part_mem

theorem linked.wellFormed (bound : Primitive) : (linked bound).WellFormed where
  unparameterized name is_alias := by
    obtain rfl := eq_of_isAlias is_alias
    rfl
  grounded name cycle := by
    obtain ⟨other, ⟨is_alias, other_alias, part, mem, names⟩, -⟩ :=
      Relation.TransGen.head'_iff.mp cycle
    obtain rfl := eq_of_isAlias is_alias
    obtain rfl := eq_of_isAlias other_alias
    obtain rfl := List.mem_singleton.mp mem
    simp at names
  plain name formal mem other names := by
    have plain : ∀ name ∈ ["A", "D", "E", "S"],
        ∀ formal ∈ formalsOf (linked bound).alternativesOf name, formal.mentions = [] :=
      of_decide_eq_true rfl
    obtain ⟨mention, mention_mem, -⟩ := names
    rw [plain name (mem_names (first?_of_mem (List.mem_append_left _ mem))) formal mem]
      at mention_mem
    cases mention_mem
  owned part contains owner mem := ⟨"D", [], owner_eq contains owner mem⟩

/-- Both formal parameters have the same bound. -/
theorem linked_agrees : (linked .value).WellFormed ∧ (linked .value).Bounded ∧
    (linked .value).declareAll.Meets {} (fun _ whole => (linked .value).Agrees whole)
      fun _ _ => False := by
  have wellFormed := linked.wellFormed .value
  have bounded : (linked .value).Bounded := by
    refine fun part contains name parameters mem => ⟨fun _ => .prim .value, ?_⟩
    obtain ⟨rfl, -⟩ := Symbol.dataRef.inj (linked.owner_eq contains _ mem)
    decide
  -- What is reconstructed is not evaluated.
  generalize linked .value = definitions at wellFormed bounded ⊢
  exact ⟨wellFormed, bounded, Definitions.declareAll_agrees wellFormed bounded⟩

/-- If the bounds differ, the parameters of the data type to which the constructor in the field
belongs depend on whether the constructor has been declared before. -/
theorem linked_not_agrees :
    (∀ key choice, (linked .int).get? key = some choice →
      (∃ parameters, choice.subject = .dataRef key parameters) ∨
        (∃ parameters, choice.subject = .aliasRef key parameters) ∨ choice.subject = .sort key) ∧
    (linked .int).WellFormed ∧
    ¬(linked .int).declareAll.Meets {} (fun _ whole => (linked .int).Agrees whole)
      fun _ _ => False := by
  refine ⟨fun key choice get?_eq => ?_, linked.wellFormed _,
    Definitions.not_agrees (rfl : (linked .int).get? "D" = some _) "E" (by decide +kernel)⟩
  have mem := Table.get?_eq_some_iff.mp get?_eq
  simp only [linked, List.mem_cons, Prod.mk.injEq, List.not_mem_nil, or_false] at mem
  rcases mem with ⟨rfl, rfl⟩ | ⟨rfl, rfl⟩ | ⟨rfl, rfl⟩ | ⟨rfl, rfl⟩
  · exact .inr (.inl ⟨_, rfl⟩)
  · exact .inl ⟨_, rfl⟩
  · exact .inl ⟨_, rfl⟩
  · exact .inr (.inr rfl)

end Reification
