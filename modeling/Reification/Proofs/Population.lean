import Reification.Proofs.Account
import Reification.Proofs.Conflict
import Reification.Proofs.Occurrences

/-!
# What a registry holds after a reconstruction

If formal parameters mention no names, a reconstruction into a fresh registry declares exactly the
names with alternatives which are reached from the symbol, and adds the rules of exactly the
nonterminals which are met.  The constructors of a data type are made from its named alternatives in
their order, and an alias has the reconstruction of its body.
-/

namespace Reification

namespace Registry

variable {registry : Registry} {name : String}

theorem mem_declaredNames_iff (inherited_eq : registry.inherited = []) :
    name ∈ registry.declaredNames ↔ registry.lookup? name ≠ none := by
  have lookup_eq : registry.lookup? name = registry.own.declarations.get? name := by
    rw [lookup?, layers, inherited_eq, List.findSome?_singleton]
  rw [declaredNames, Table.mem_names_iff, lookup_eq]

/-- A registry which inherits nothing has the rules of its own layer. -/
theorem rulesOf_of_inherited_eq (inherited_eq : registry.inherited = []) :
    registry.rulesOf name = registry.own.rules.alternativesOf name := by
  rw [rulesOf, inherited_eq, List.foldl_nil]

end Registry

namespace Reconstruct

variable {resolve : Resolver} {definitions : Definitions} {symbol visited : Symbol} {result : Ty}
  {world : World} {name : String}

/-- Whether a constructor of a data type shows an alternative: its name, the labels of all its fields
in their order and its attributes. -/
structure Shows (owner : DataRef Ty) (production : Production) (constructor : Constructor Ty) :
    Prop where
  owner_eq : constructor.owner = owner
  name_eq : some constructor.name = production.name
  labels_eq : constructor.fields.map (·.label) = production.symbols.map (·.label?)
  attributes_eq : constructor.attributes = production.attributes

/-- Whether a registry holds exactly what is reached from a symbol. -/
structure Holds (definitions : Definitions) (symbol : Symbol) (world : World) : Prop where
  declaredNames_iff : ∀ name, name ∈ world.registry.declaredNames ↔
    (definitions.alternativesOf name).first? ≠ none ∧
      Reaches definitions.alternativesOf symbol name
  ruleNames_iff : ∀ name, name ∈ world.registry.ruleNames ↔
    (definitions.alternativesOf name).first? ≠ none ∧
      MeetsSort definitions.alternativesOf symbol name
  rulesOf_eq : ∀ name ∈ world.registry.ruleNames,
    world.registry.rulesOf name = definitions.alternativesOf name
  kinds : ∀ name ∈ world.registry.declaredNames,
    (IsAlias definitions.alternativesOf name → world.registry.lookupAlias? name ≠ none) ∧
      (¬IsAlias definitions.alternativesOf name → world.registry.lookupData? name ≠ none)
  constructors : ∀ name reference, world.registry.lookupData? name = some reference →
    ∃ offered, List.Forall₂ (fun production constructor =>
          Offers definitions.alternativesOf reference world production constructor ∧
            Shows reference production constructor.1)
        ((definitions.alternativesOf name).toList.filter (·.name.isSome)) offered ∧
      settle [] offered = world.registry.constructorsOf world.store name
  bodies : ∀ name reference, world.registry.lookupAlias? name = some reference →
    ∃ body, world.store.body? reference = some body ∧
      Embodies definitions.alternativesOf world name body

/-- Fields have the labels of their symbols. -/
theorem fieldsWith_labels {named : String → List Ty → Building Ty} {sort : String → Building Unit}
    (symbols : List Symbol) (world : World) :
    (fieldsWith named sort symbols).Meets world
      (fun fields _ => fields.map (·.label) = symbols.map (·.label?)) fun _ _ => True := by
  induction symbols generalizing world with
  | nil => rfl
  | cons symbol symbols ih =>
    refine Building.meets_bind_of_runs (fun type after _ => ?_) fun _ _ _ => trivial
    refine Building.meets_bind.mpr ((ih after).mono (fun fields _ labels_eq => ?_) fun _ _ => id)
    exact congrArg (symbol.label? :: ·) labels_eq

/-- What an alternative offers shows it. -/
theorem Offers.shows {owner : DataRef Ty} {production : Production}
    {offered : Constructor Ty × Store} (offers : Offers resolve owner world production offered) :
    Shows owner production offered.1 := by
  obtain ⟨name, depth, start, fields, middle, name_eq, -, run_eq, -, rfl⟩ := offers
  exact ⟨rfl, name_eq.symm, (Building.meets_iff_of_run_eq_ok run_eq).mp
    (fieldsWith_labels production.symbols start), rfl⟩

/-- A symbol of a nonterminal or of a name in a symbol which a reconstruction goes through is covered
in the end. -/
theorem Complete.covered_of_goesThrough (complete : Complete resolve (fun _ => False) world)
    (covered : ∀ mention ∈ symbol.mentions, Covered resolve world mention)
    (goes : GoesThrough resolve symbol visited) {mention : Mention}
    (mem : mention ∈ visited.mentions) : Covered resolve world mention := by
  rcases goes with rfl | ⟨name, reaches, visited_mem⟩
  · exact covered mention mem
  · obtain ⟨type, declared⟩ := Option.ne_none_iff_exists'.mp
      (complete.declared_of_reaches covered reaches (first?_of_mem visited_mem))
    exact (complete declared id).2 mention (Symbol.mem_mentionsOfAll visited_mem mem)

/-- The rules of a nonterminal which is met are known in the end. -/
theorem Complete.rules_of_meets (complete : Complete resolve (fun _ => False) world)
    (covered : ∀ mention ∈ symbol.mentions, Covered resolve world mention)
    (inherited_eq : world.registry.inherited = []) (met : MeetsSort resolve symbol name)
    (some_alternative : (resolve name).first? ≠ none) :
    world.registry.own.rules.get? name ≠ none := by
  obtain ⟨visited, goes, mem⟩ := met
  obtain ⟨rule, first_eq⟩ := Option.ne_none_iff_exists'.mp some_alternative
  intro none
  have rule_mem := complete.covered_of_goesThrough covered goes mem rule
    (List.mem_of_mem_head? first_eq)
  rw [Registry.rulesOf_of_inherited_eq inherited_eq, Definitions.alternativesOf, none] at rule_mem
  exact List.not_mem_nil rule_mem

theorem orderly_fresh (resolve : Resolver) (store : Store) : Orderly resolve { store } where
  inherited_eq := rfl
  vacant _ _ := rfl
  rules_eq _ some_rule := absurd rfl some_rule

/-- After a reconstruction into a fresh registry whose formal parameters mention no names, the
registry holds exactly what is reached from the symbol. -/
theorem reconstruct_holds
    (plain : ∀ name, ∀ formal ∈ formalsOf definitions.alternativesOf name, ∀ other,
      ¬formal.Names other)
    (run_eq : (Reified.reconstruct ⟨symbol, definitions⟩).run.run {} = (.ok result, world)) :
    Holds definitions symbol world := by
  have accounts : Accounts definitions.alternativesOf (MeetsSort definitions.alternativesOf symbol)
      (fun _ => False) {} world :=
    (Building.meets_iff_of_run_eq_ok run_eq).mp (typeWithin_givesAccount (.inl rfl)
      (fun _ _ _ => expandWithin_accounts plain (maxDepth definitions)) {} (orderly_fresh _ _))
  obtain ⟨advances, covered⟩ : Advances definitions.alternativesOf
      (Reaches definitions.alternativesOf symbol) {} world ∧
        ∀ mention ∈ symbol.mentions, Covered definitions.alternativesOf world mention :=
    (Building.meets_iff_of_run_eq_ok run_eq).mp (typeWithin_keeps _ symbol {})
  have complete := advances.complete (complete_fresh (fun _ => False) {})
  have inherited_eq := accounts.orderly.inherited_eq
  have tidy := tidy_of_reconstruct run_eq
  have undeclared (name : String) : ({} : World).registry.lookup? name = none := rfl
  refine
    { declaredNames_iff := fun name => ?_
      ruleNames_iff := fun name => ?_
      rulesOf_eq := fun name mem => ?_
      kinds := fun name mem => ?_
      constructors := fun name reference lookup_eq => ?_
      bodies := fun name reference lookup_eq => ?_ }
  · rw [Registry.mem_declaredNames_iff inherited_eq]
    refine ⟨fun declared => ⟨?_, advances.names_of_new (undeclared name) declared⟩,
      fun ⟨some_alternative, reaches⟩ =>
        complete.declared_of_reaches covered reaches some_alternative⟩
    obtain ⟨type, lookup_eq⟩ := Option.ne_none_iff_exists'.mp declared
    exact (tidy.declared lookup_eq).resolved
  · rw [Registry.ruleNames, Table.mem_names_iff]
    refine ⟨fun some_rule => ⟨(accounts.orderly.rules_eq some_rule).1,
      (accounts.rules_of_new some_rule).resolve_left fun before => before rfl⟩, ?_⟩
    exact fun ⟨some_alternative, met⟩ =>
      complete.rules_of_meets covered inherited_eq met some_alternative
  · rw [Registry.rulesOf_of_inherited_eq inherited_eq]
    exact (accounts.orderly.rules_eq (Table.mem_names_iff.mp mem)).2
  · obtain ⟨type, lookup_eq⟩ := Option.ne_none_iff_exists'.mp
      ((Registry.mem_declaredNames_iff inherited_eq).mp mem)
    obtain ⟨reference, rfl, -, no_alias⟩ | ⟨reference, rfl, -, is_alias, -⟩ :=
      (tidy.declared lookup_eq).kind
    · refine ⟨fun is_alias => absurd is_alias no_alias, fun _ => ?_⟩
      rw [Registry.lookupData?_eq_some_iff.mpr lookup_eq]
      exact nofun
    · refine ⟨fun _ => ?_, fun no_alias => absurd is_alias no_alias⟩
      rw [Registry.lookupAlias?_eq_some_iff.mpr lookup_eq]
      exact nofun
  · have lookup_eq := Registry.lookupData?_eq_some_iff.mp lookup_eq
    obtain ⟨offered, offers, settle_eq⟩ :=
      (accounts.accounted (undeclared name) (by simp [lookup_eq])).data lookup_eq
    refine ⟨offered, offers.imp fun _ _ offer => ⟨offer, offer.shows⟩, ?_⟩
    rw [settle_eq, Registry.constructorsOf_of_inherited_eq inherited_eq]
  · have lookup_eq := Registry.lookupAlias?_eq_some_iff.mp lookup_eq
    exact (accounts.accounted (undeclared name) (by simp [lookup_eq])).alias_ lookup_eq

/-- A data type with a nonterminal, an alias without a body and a data type which is mentioned only
in an alternative without a name. -/
def assorted : Definitions where
  entries := [
    ("D", {
      subject := .dataRef "D" []
      alternatives := ⟨[
        { subject := .dataRef "D" []
          symbols := [.dataRef "Q" []] },
        { subject := .dataRef "D" []
          name := some "d"
          symbols := [.label "rest" (.list (.dataRef "D" [])), .aliasRef "V" [], .sort "S"]
          attributes := ⟨[.bracket], List.pairwise_singleton _ _⟩ }], by decide⟩ }),
    ("Q", {
      subject := .dataRef "Q" []
      alternatives := ⟨[{ subject := .dataRef "Q" [], name := some "q" }],
        List.pairwise_singleton _ _⟩ }),
    ("S", {
      subject := .sort "S"
      alternatives := ⟨[{ subject := .sort "S", symbols := [.prim .str] }],
        List.pairwise_singleton _ _⟩ }),
    ("V", {
      subject := .aliasRef "V" []
      alternatives := ⟨[{ subject := .aliasRef "V" [] }], List.pairwise_singleton _ _⟩ })]
  increasing := by decide

/-- The formal parameters of a subject without parameters are none. -/
theorem assorted_formals (name : String) : formalsOf assorted.alternativesOf name = [] := by
  rcases choice_eq : assorted.get? name with _ | choice
  · simp [formalsOf, subjectOf?, Definitions.alternativesOf, choice_eq, OrderedSet.first?]
  · have entry := Table.get?_eq_some_iff.mp choice_eq
    simp only [assorted, List.mem_cons, Prod.mk.injEq, List.not_mem_nil, or_false] at entry
    rcases entry with ⟨rfl, rfl⟩ | ⟨rfl, rfl⟩ | ⟨rfl, rfl⟩ | ⟨rfl, rfl⟩ <;>
      simp [formalsOf, subjectOf?, Definitions.alternativesOf, choice_eq, OrderedSet.first?,
        Symbol.withoutLabels]

/-- What is reconstructed from the data type. -/
def assorted.outcome : Except Failure Ty × World :=
  (Reified.reconstruct ⟨.dataRef "D" [], assorted⟩).run.run {}

theorem assorted_run_eq : (Reified.reconstruct ⟨.dataRef "D" [], assorted⟩).run.run {} =
    (.ok (.dataRef ⟨0, "D", []⟩), assorted.outcome.2) := rfl

theorem assorted_holds : (∀ name, ∀ formal ∈ formalsOf assorted.alternativesOf name, ∀ other,
      ¬formal.Names other) ∧
    (Reified.reconstruct ⟨.dataRef "D" [], assorted⟩).run.run {} =
      (.ok (.dataRef ⟨0, "D", []⟩), assorted.outcome.2) ∧
    Holds assorted (.dataRef "D" []) assorted.outcome.2 := by
  have plain (name : String) (formal : Symbol) (mem : formal ∈ formalsOf assorted.alternativesOf name)
      (other : String) : ¬formal.Names other := by
    rw [assorted_formals] at mem
    cases mem
  exact ⟨plain, assorted_run_eq, reconstruct_holds plain assorted_run_eq⟩

end Reconstruct

end Reification
