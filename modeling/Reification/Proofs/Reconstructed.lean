import Reification.Proofs.Restorable

/-!
# Reconstructed types

A restorable symbol is reconstructed in an empty registry.  Whatever is reached from the result is
what some symbol means which the reconstruction goes through, so that it mentions only names which
this symbol involves, or names without alternatives, and nonterminals which are met.
-/

namespace Reification

open Reify (Context)

/-- What types are reified with in a world. -/
def World.context (world : World) : Context := { store := world.store, registry := world.registry }

/-- A data type or an alias which has an entry is declared as what it is. -/
theorem World.declared_of_entry {world : World} {mention : Mention} {name : String}
    (declared : mention.declared? = some name)
    (entry_ne : world.context.entryOf? mention ≠ none) :
    (mention = .dataRef name ∧ ∃ reference, world.registry.lookupData? name = some reference) ∨
      mention = .aliasRef name ∧
        ∃ reference, world.registry.lookupAlias? name = some reference := by
  cases mention with
  | dataRef other =>
    obtain rfl := Option.some.inj declared
    refine .inl ⟨rfl, Option.ne_none_iff_exists'.mp fun none_eq => entry_ne ?_⟩
    simp [Context.entryOf?, World.context, none_eq]
  | aliasRef other =>
    obtain rfl := Option.some.inj declared
    refine .inr ⟨rfl, Option.ne_none_iff_exists'.mp fun none_eq => entry_ne ?_⟩
    simp [Context.entryOf?, World.context, none_eq]
  | sort other => cases declared

namespace Reconstruct

variable {resolve : Resolver} {definitions : Definitions} {symbol visited formal : Symbol}
  {shapes : Shapes} {name other : String}

/-- Whether a name is in a symbol, or is led to through formal parameters from a name which is. -/
def Involves (resolve : Resolver) (visited : Symbol) (name : String) : Prop :=
  ∃ first, visited.Names first ∧ Relation.ReflTransGen
    (fun user used => ∃ formal ∈ formalsOf resolve user, formal.Names used) first name

theorem Involves.of_formal (names : visited.Names name) (mem : formal ∈ formalsOf resolve name)
    (involves : Involves resolve formal other) : Involves resolve visited other := by
  obtain ⟨first, first_names, path⟩ := involves
  exact ⟨name, names, .head ⟨formal, mem, first_names⟩ path⟩

theorem Involves.reaches (involves : Involves resolve visited name) :
    Reaches resolve visited name := by
  obtain ⟨first, names, path⟩ := involves
  refine ⟨first, names, path.lift id ?_⟩
  exact fun _ _ ⟨formal, mem, names⟩ => ⟨formal, List.mem_append_left _ mem, names⟩

/-- What may be mentioned in the meaning of a symbol which a reconstruction goes through: names which
are involved in the symbol, names without alternatives and nonterminals which are met. -/
def MayMention (resolve : Resolver) (symbol visited : Symbol) : Mention → Prop
  | .dataRef name | .aliasRef name => Involves resolve visited name ∨ (resolve name).first? = none
  | .sort name => MeetsSort resolve symbol name

theorem MayMention.of_formal (names : visited.Names name) (mem : formal ∈ formalsOf resolve name)
    {mention : Mention} (may : MayMention resolve symbol formal mention) :
    MayMention resolve symbol visited mention := by
  cases mention with
  | dataRef | aliasRef => exact may.imp_left (.of_formal names mem)
  | sort => exact may

/-- Whether a name is reached, or there is nothing to reach. -/
def Settled (resolve : Resolver) (symbol : Symbol) (name : String) : Prop :=
  Reaches resolve symbol name ∨ (resolve name).first? = none

namespace Restorable

variable (restorable : Restorable definitions.alternativesOf symbol)
  (solves : ∀ name, Reaches definitions.alternativesOf symbol name →
    Solves definitions.alternativesOf shapes name)

include restorable solves

/-- The name of the owner of a constructor is in the symbol, or it has no alternatives. -/
theorem names_ownerName (goes : GoesThrough definitions.alternativesOf symbol visited)
    {owner : Symbol} (mem : owner ∈ visited.owners) :
    let name := (owner.tree (meaning definitions.alternativesOf shapes)).ownerName
    visited.Names name ∨ (definitions.alternativesOf name).first? = none := by
  by_cases is_reference : owner.IsReference
  · obtain ⟨name, actuals, names, tree_eq⟩ :=
      is_reference.exists_named (meaning definitions.alternativesOf shapes)
    rw [tree_eq, Meaning.ownerName_named (fun _ => isReference_of_meaning) actuals]
    exact .inl (Symbol.names_of_mem_owners mem names)
  · rcases restorable.madeUp solves goes mem is_reference with none_eq | ⟨names, -⟩
    · exact .inr none_eq
    · exact .inl (Symbol.names_of_mem_owners mem names)

/-- What a symbol means mentions only what may be mentioned if what its names stand for does. -/
theorem mentionsOnly_of_names (goes : GoesThrough definitions.alternativesOf symbol visited)
    (declared : ∀ name, visited.Names name → ∀ declared,
      meaning definitions.alternativesOf shapes name = some declared →
        declared.MentionsOnly (MayMention definitions.alternativesOf symbol visited)) :
    (visited.tree (meaning definitions.alternativesOf shapes)).MentionsOnly
      (MayMention definitions.alternativesOf symbol visited) :=
  Symbol.tree_mentionsOnly declared (fun name names => .inl ⟨name, names, .refl⟩)
    (fun _ mem => ⟨visited, goes, mem⟩) fun _ mem =>
      (restorable.names_ownerName solves goes mem).imp_left fun names => ⟨_, names, .refl⟩

theorem mentionsOnly (goes : GoesThrough definitions.alternativesOf symbol visited) :
    (visited.tree (meaning definitions.alternativesOf shapes)).MentionsOnly
      (MayMention definitions.alternativesOf symbol visited) := by
  refine restorable.mentionsOnly_of_names solves goes fun name names => ?_
  refine restorable.parts_induction (P := fun name => ∀ visited : Symbol, visited.Names name →
    ∀ declared, meaning definitions.alternativesOf shapes name = some declared →
      declared.MentionsOnly (MayMention definitions.alternativesOf symbol visited))
    (fun name reaches ih visited names declared meaning_eq mention mem => ?_)
    (goes.reaches names) visited names
  obtain ⟨is_reference, name_eq⟩ := isReference_of_meaning meaning_eq
  rcases is_reference.mem_mentions name_eq mem with ⟨parameter, parameter_mem, mem⟩ | mentioned
  · rw [parameters_of_meaning meaning_eq,
      (solves name reaches).formals_eq (first?_of_meaning meaning_eq)] at parameter_mem
    obtain ⟨formal, formal_mem, rfl⟩ := List.mem_map.mp parameter_mem
    have only := restorable.mentionsOnly_of_names solves
      (.inr ⟨name, reaches, List.mem_append_left _ formal_mem⟩)
      fun other names => ih formal (.inl formal_mem) other names formal names
    exact (only mention mem).of_formal names formal_mem
  · cases mention with
    | dataRef | aliasRef =>
      obtain rfl := Option.some.inj mentioned
      exact .inl ⟨_, names, .refl⟩
    | sort => cases mentioned

/-- A name in the symbol of what a symbol means is involved in the latter, or it has no alternatives. -/
theorem involves_of_names (goes : GoesThrough definitions.alternativesOf symbol visited)
    (names : (visited.tree (meaning definitions.alternativesOf shapes)).symbol.Names name) :
    Involves definitions.alternativesOf visited name ∨
      (definitions.alternativesOf name).first? = none := by
  obtain ⟨mention, mem, declared⟩ := names
  have may := restorable.mentionsOnly solves goes mention mem
  cases mention with
  | dataRef | aliasRef =>
    obtain rfl := Option.some.inj declared
    exact may
  | sort => cases declared

end Restorable

/-- A world in which a restorable symbol has been reconstructed. -/
structure Reconstructs (definitions : Definitions) (shapes : Shapes) (symbol : Symbol) (type : Ty)
    (world : World) (scope : Scope) : Prop where
  restorable : Restorable definitions.alternativesOf symbol
  solves : ∀ name, Reaches definitions.alternativesOf symbol name →
    Solves definitions.alternativesOf shapes name
  sound : (Stage.start definitions shapes).Sound world scope
  denotes : scope.Denotes type (symbol.tree (meaning definitions.alternativesOf shapes))
  reaches : ∀ name, world.registry.lookup? name ≠ none →
    Reaches definitions.alternativesOf symbol name

/-- Reconstructing a restorable symbol in an empty registry ends without an error. -/
theorem Restorable.reconstruct_meets {reified : Reified}
    (restorable : Restorable reified.definitions.alternativesOf reified.symbol) :
    reified.reconstruct.Meets {} (fun type world => ∃ shapes scope,
      Reconstructs reified.definitions shapes reified.symbol type world scope) fun _ _ => False := by
  obtain ⟨shapes, solves⟩ := restorable.exists_shapes
  have sound := Stage.sound_start reified.definitions shapes
    (.of {} [] (by simp) (by simp) (by simp))
  have builds := Stage.typeWithin_builds le_rfl sound
    (fun name reaches => restorable.regular solves reaches) (fun _ _ _ _ => ⟨id, False.elim⟩)
    fun owner mem => restorable.keeps solves (.inl rfl) mem
  have keeps : Keeps reified.definitions.alternativesOf _ _ reified.reconstruct _ :=
    typeWithin_keeps _ reified.symbol {}
  refine Building.Meets.mono (builds.and keeps) ?_ fun _ _ failed => failed.1
  rintro type world ⟨⟨-, scope, -, after_sound, denotes⟩, advances, -⟩
  refine ⟨shapes, scope, restorable, solves, after_sound, denotes, fun name declared => ?_⟩
  exact advances.names_of_new (by simp [Registry.lookup?, Registry.layers]) declared

namespace Reconstructs

variable {type part : Ty} {world : World} {scope : Scope}
  (reconstructs : Reconstructs definitions shapes symbol type world scope)

include reconstructs

/-- A data type is declared from its alternatives. -/
theorem data {reference : DataRef Ty}
    (declared_eq : world.registry.lookupData? name = some reference) :
    Reaches definitions.alternativesOf symbol name ∧
      ¬IsAlias definitions.alternativesOf name ∧
      (definitions.alternativesOf name).first? ≠ none ∧ reference.name = name ∧
      scope.DenoteAll reference.parameters (shapes.formals name) := by
  have lookup_eq := Registry.lookupData?_eq_some_iff.mp declared_eq
  have reaches := reconstructs.reaches name (by simp [lookup_eq])
  cases reconstructs.sound.declares lookup_eq with
  | data name_eq meaning_eq _ denote =>
    refine ⟨reaches, fun is_alias => ?_, fun none_eq => ?_, name_eq, denote⟩
    · cases meaning_eq.symm.trans (meaning_of_alias is_alias)
    · cases meaning_eq.symm.trans (meaning_eq_none none_eq)

/-- An alias is declared from its alternatives, and its slot is filled. -/
theorem alias_ {reference : AliasRef Ty}
    (declared_eq : world.registry.lookupAlias? name = some reference) :
    Reaches definitions.alternativesOf symbol name ∧ IsAlias definitions.alternativesOf name ∧
      reference.name = name ∧
      scope.DenoteAll reference.parameters (shapes.formals name) ∧
      ∃ body, world.store.body? reference = some body ∧ scope.Denotes body (shapes.body name) := by
  have lookup_eq := Registry.lookupAlias?_eq_some_iff.mp declared_eq
  have reaches := reconstructs.reaches name (by simp [lookup_eq])
  cases reconstructs.sound.declares lookup_eq with
  | alias_ name_eq is_alias _ denote filled =>
    exact ⟨reaches, is_alias, name_eq, denote, reconstructs.sound.store_eq ▸ filled id⟩

theorem declaredConstructors_eq : world.context.registry.declaredConstructors name =
    world.registry.own.constructorsOf name := by
  simp [World.context, Registry.declaredConstructors, Registry.layers,
    reconstructs.sound.inherited_eq]

theorem constructorsOf_eq : world.context.registry.constructorsOf world.context.store name =
    some (world.registry.own.constructorsOf name) :=
  Registry.constructorsOf_of_inherited_eq reconstructs.sound.inherited_eq _ _

/-- What the declaration of a name consists of is what a formal parameter, a field or the body of the
name means, or any value in place of a missing body. -/
theorem exists_visited_of_mem {mention : Mention} (mem : part ∈ world.context.partsOf mention) :
    ∃ name visited, mention.declared? = some name ∧ Reaches definitions.alternativesOf symbol name ∧
      (visited = .prim .value ∨
        visited ∈ formalsOf definitions.alternativesOf name ++
          contentsOf definitions.alternativesOf name) ∧
      scope.Denotes part (visited.tree (meaning definitions.alternativesOf shapes)) := by
  have formals {name : String} (reaches : Reaches definitions.alternativesOf symbol name)
      (some_alternative : (definitions.alternativesOf name).first? ≠ none) {types : List Ty}
      (denote : scope.DenoteAll types (shapes.formals name)) (mem : part ∈ types) :
      ∃ visited ∈ formalsOf definitions.alternativesOf name,
        scope.Denotes part (visited.tree (meaning definitions.alternativesOf shapes)) := by
    rw [(reconstructs.solves name reaches).formals_eq some_alternative, formalTrees,
      Scope.denoteAll_iff, List.forall₂_map_right_iff] at denote
    exact Scope.exists_of_forall₂ denote mem
  cases mention with
  | dataRef name =>
    cases declared_eq : world.registry.lookupData? name with
    | none => simp [Context.partsOf, World.context, declared_eq] at mem
    | some reference =>
      obtain ⟨reaches, no_alias, some_alternative, -, denote⟩ := reconstructs.data declared_eq
      refine ⟨name, ?_⟩
      rcases (Context.mem_partsOf_data declared_eq).mp mem with
        mem | ⟨constructor, constructor_mem, field, field_mem, rfl⟩
      · obtain ⟨visited, visited_mem, denotes⟩ := formals reaches some_alternative denote mem
        exact ⟨visited, rfl, reaches, .inr (List.mem_append_left _ visited_mem), denotes⟩
      · rw [reconstructs.declaredConstructors_eq] at constructor_mem
        obtain ⟨-, -, production, production_mem, ⟨name_eq, denote⟩, -⟩ :=
          reconstructs.sound.constructs constructor_mem
        rw [Scope.denoteFields_iff, Symbol.fieldTrees_eq, List.forall₂_map_right_iff] at denote
        obtain ⟨visited, visited_mem, -, denotes⟩ := Scope.exists_of_forall₂ denote field_mem
        refine ⟨visited, rfl, reaches, .inr (List.mem_append_right _ ?_), denotes⟩
        obtain ⟨first, first_eq⟩ := Option.ne_none_iff_exists'.mp some_alternative
        rw [contentsOf_eq_of_not_alias first_eq fun other parameters subject_eq =>
          no_alias ⟨other, parameters, by simp [subjectOf?, first_eq, subject_eq]⟩]
        exact List.mem_flatMap.mpr
          ⟨production, List.mem_filter.mpr ⟨production_mem, by simp [name_eq]⟩, visited_mem⟩
  | aliasRef name =>
    cases declared_eq : world.registry.lookupAlias? name with
    | none => simp [Context.partsOf, World.context, declared_eq] at mem
    | some reference =>
      obtain ⟨reaches, is_alias, -, denote, body, body_eq, body_denotes⟩ :=
        reconstructs.alias_ declared_eq
      refine ⟨name, ?_⟩
      rcases (Context.mem_partsOf_alias declared_eq).mp mem with mem | part_eq
      · obtain ⟨visited, visited_mem, denotes⟩ :=
          formals reaches (first?_of_isAlias is_alias) denote mem
        exact ⟨visited, rfl, reaches, .inr (List.mem_append_left _ visited_mem), denotes⟩
      · obtain rfl := Option.some.inj (body_eq.symm.trans part_eq)
        rw [(reconstructs.solves name reaches).body_eq is_alias, bodyTree] at body_denotes
        cases symbol_eq : bodySymbol? (definitions.alternativesOf name) with
        | none =>
          exact ⟨.prim .value, rfl, reaches, .inl rfl,
            by simpa [symbol_eq, Symbol.tree] using body_denotes⟩
        | some visited =>
          refine ⟨visited, rfl, reaches, .inr (List.mem_append_right _ ?_),
            by simpa [symbol_eq] using body_denotes⟩
          simp [contentsOf_alias is_alias, symbol_eq]
  | sort name => cases mem

/-- What is reached from the result is what a symbol means which is gone through, or any value. -/
theorem exists_visited (within : world.context.Within type part) :
    ∃ visited, (visited = .prim .value ∨ GoesThrough definitions.alternativesOf symbol visited) ∧
      scope.Denotes part (visited.tree (meaning definitions.alternativesOf shapes)) := by
  obtain rfl | ⟨mention, -, mem⟩ := within
  · exact ⟨symbol, .inr (.inl rfl), reconstructs.denotes⟩
  · obtain ⟨name, visited, -, reaches, found, denotes⟩ := reconstructs.exists_visited_of_mem mem
    exact ⟨visited, found.imp_right fun mem => .inr ⟨name, reaches, mem⟩, denotes⟩

/-- A part of a declaration mentions what the meaning of its symbol may mention. -/
theorem mayMention (found : visited = .prim .value ∨
      GoesThrough definitions.alternativesOf symbol visited)
    (denotes : scope.Denotes part (visited.tree (meaning definitions.alternativesOf shapes)))
    {mention : Mention} (mem : mention ∈ part.symbol.mentions) :
    GoesThrough definitions.alternativesOf symbol visited ∧
      MayMention definitions.alternativesOf symbol visited mention := by
  rw [denotes.symbol_eq] at mem
  rcases found with rfl | goes
  · cases mem
  · exact ⟨goes, reconstructs.restorable.mentionsOnly reconstructs.solves goes mention mem⟩

theorem exists_mayMention {mention : Mention} (reaches : world.context.Reaches type mention) :
    ∃ visited, GoesThrough definitions.alternativesOf symbol visited ∧
      MayMention definitions.alternativesOf symbol visited mention := by
  have within : ∃ part, world.context.Within type part ∧ mention ∈ part.symbol.mentions := by
    obtain ⟨first, mem, path⟩ := reaches
    cases path with
    | refl => exact ⟨type, .inl rfl, mem⟩
    | tail path uses =>
      obtain ⟨part, part_mem, mem⟩ := uses
      exact ⟨part, .inr ⟨_, ⟨first, ‹_›, path⟩, part_mem⟩, mem⟩
  obtain ⟨part, within, mem⟩ := within
  obtain ⟨visited, found, denotes⟩ := reconstructs.exists_visited within
  exact ⟨visited, reconstructs.mayMention found denotes mem⟩

/-- A name which is reached from the result is reached in the definitions, or it has no
alternatives there. -/
theorem settled {mention : Mention} (reaches : world.context.Reaches type mention)
    (declared : mention.declared? = some name) :
    Settled definitions.alternativesOf symbol name := by
  obtain ⟨visited, goes, may⟩ := reconstructs.exists_mayMention reaches
  cases mention with
  | dataRef | aliasRef =>
    obtain rfl := Option.some.inj declared
    exact may.imp_left fun involves => goes.reaches_of_reaches involves.reaches
  | sort => cases declared

theorem meetsSort (reaches : world.context.Reaches type (.sort name)) :
    MeetsSort definitions.alternativesOf symbol name := by
  obtain ⟨_, -, met⟩ := reconstructs.exists_mayMention reaches
  exact met

/-- A nonterminal has no alternatives as a declared name. -/
theorem first?_eq_none (reaches : world.context.Reaches type (.sort name))
    (settled : Settled definitions.alternativesOf symbol name) :
    (definitions.alternativesOf name).first? = none := by
  by_contra some_alternative
  exact reconstructs.restorable.apart name some_alternative (settled.resolve_right some_alternative)
    (reconstructs.meetsSort reaches)

/-- The entry of a name mentions what its declaration mentions. -/
theorem leads_eq : world.context.Leads = world.context.Uses := by
  funext mention next
  refine propext ?_
  cases mention with
  | dataRef name =>
    cases declared_eq : world.context.registry.lookupData? name with
    | none => simp [Context.Leads, Context.entryOf?, Context.Uses, Context.partsOf, declared_eq]
    | some reference =>
      rw [Context.Leads, Context.entryOf?_dataRef declared_eq reconstructs.constructorsOf_eq]
      simp only [Option.some.injEq, exists_eq_left']
      rw [Symbol.mentionsOfAll_append, List.mem_append, Ty.mem_mentionsOfAll_symbols,
        Symbol.mentionsOfAll_eq, List.flatMap_assoc, List.mem_flatMap]
      simp only [← Symbol.mentionsOfAll_eq, Ty.mem_mentionsOfAll_symbolsOfFields, Context.Uses,
        Context.mem_partsOf_data declared_eq, reconstructs.declaredConstructors_eq]
      constructor
      · rintro (⟨formal, mem, next_mem⟩ | ⟨constructor, mem, field, field_mem, next_mem⟩)
        · exact ⟨formal, .inl mem, next_mem⟩
        · exact ⟨field.type, .inr ⟨constructor, mem, field, field_mem, rfl⟩, next_mem⟩
      · rintro ⟨part, mem | ⟨constructor, mem, field, field_mem, rfl⟩, next_mem⟩
        · exact .inl ⟨part, mem, next_mem⟩
        · exact .inr ⟨constructor, mem, field, field_mem, next_mem⟩
  | aliasRef name =>
    cases declared_eq : world.context.registry.lookupAlias? name with
    | none => simp [Context.Leads, Context.entryOf?, Context.Uses, Context.partsOf, declared_eq]
    | some reference =>
      obtain ⟨-, -, -, -, body, body_eq, -⟩ := reconstructs.alias_ declared_eq
      rw [Context.Leads, Context.entryOf?_aliasRef declared_eq body_eq]
      simp only [Option.some.injEq, exists_eq_left', Symbol.mentionsOfAll_append, List.mem_append,
        Ty.mem_mentionsOfAll_symbols, Context.Uses, Context.mem_partsOf_alias declared_eq]
      simp [World.context, body_eq, Symbol.mentionsOfAll, or_and_right, exists_or]
  | sort name => simp [Context.Leads, Context.entryOf?, Context.Uses, Context.partsOf,
      Symbol.mentionsOfAll]

theorem meets_iff {mention : Mention} :
    world.context.Meets type.symbol.mentions mention ↔ world.context.Reaches type mention := by
  rw [Context.Meets, reconstructs.leads_eq]
  rfl

/-- No name has entries in two uses. -/
theorem oneKind : world.context.OneKind type.symbol.mentions := by
  have not_sort {mention : Mention} {name : String} (declared : mention.declared? = some name)
      (entry_ne : world.context.entryOf? mention ≠ none) :
      ¬world.context.Reaches type (.sort name) := fun reaches => by
    rcases World.declared_of_entry declared entry_ne with ⟨-, reference, declared_eq⟩ |
      ⟨-, reference, declared_eq⟩
    · obtain ⟨name_reaches, -, some_alternative, -⟩ := reconstructs.data declared_eq
      exact some_alternative (reconstructs.first?_eq_none reaches (.inl name_reaches))
    · obtain ⟨name_reaches, is_alias, -⟩ := reconstructs.alias_ declared_eq
      exact first?_of_isAlias is_alias (reconstructs.first?_eq_none reaches (.inl name_reaches))
  have unique {mention other : Mention} {name : String} (declared : mention.declared? = some name)
      (other_declared : other.declared? = some name)
      (entry_ne : world.context.entryOf? mention ≠ none)
      (other_ne : world.context.entryOf? other ≠ none) : mention = other := by
    rcases World.declared_of_entry declared entry_ne with ⟨rfl, reference, declared_eq⟩ |
        ⟨rfl, reference, declared_eq⟩ <;>
      rcases World.declared_of_entry other_declared other_ne with ⟨rfl, other, other_eq⟩ |
        ⟨rfl, other, other_eq⟩
    · rfl
    · rw [Registry.lookupData?_eq_some_iff] at declared_eq
      cases declared_eq.symm.trans (Registry.lookupAlias?_eq_some_iff.mp other_eq)
    · rw [Registry.lookupAlias?_eq_some_iff] at declared_eq
      cases declared_eq.symm.trans (Registry.lookupData?_eq_some_iff.mp other_eq)
    · rfl
  intro mention other meets other_meets name_eq entry_ne other_ne
  rw [reconstructs.meets_iff] at meets other_meets
  cases mention with
  | dataRef name | aliasRef name =>
    cases other with
    | dataRef | aliasRef => exact unique rfl (congrArg some name_eq.symm) entry_ne other_ne
    | sort other =>
      obtain rfl : name = other := name_eq
      exact absurd other_meets (not_sort rfl entry_ne)
  | sort name =>
    cases other with
    | dataRef other | aliasRef other =>
      obtain rfl : name = other := name_eq
      exact absurd meets (not_sort rfl other_ne)
    | sort => exact congrArg _ name_eq

end Reconstructs

end Reconstruct

end Reification
