import Reification.Proofs.Reconstructed

/-!
# Restoration

What has been reconstructed from a restorable symbol is reified.  By the alternatives which are
recorded the names which are reached stand for what they stood for, except that data types without
constructors have become opaque.  Hence everything which is reached means itself again and can be
reconstructed again.
-/

namespace Reification

/-- Types which show trees have their symbols. -/
theorem Scope.DenoteAll.symbols_trees {scope : Scope} {types : List Ty} {trees : List Tree}
    (denote : scope.DenoteAll types trees) : Ty.symbols types = trees.map Tree.symbol := by
  rw [Scope.denoteAll_iff] at denote
  induction denote with
  | nil => rfl
  | cons head _ ih => rw [Ty.symbols, head.symbol_eq, ih, List.map_cons]

namespace Reconstruct

open Reify (Context)

variable {definitions : Definitions} {shapes : Shapes} {symbol visited : Symbol}
  {type part : Ty} {world : World} {scope : Scope} {reified : Reified} {name other : String}
  {mention : Mention}

/-- Whether a name is reached from a type as that of a data type or of an alias. -/
def ReachesName (context : Context) (type : Ty) (name : String) : Prop :=
  ∃ mention, context.Reaches type mention ∧ mention.declared? = some name

theorem first?_ne_none_of_path {resolve : Resolver}
    (path : Relation.ReflTransGen (Leads resolve) other name)
    (some_alternative : (resolve name).first? ≠ none) : (resolve other).first? ≠ none := by
  rcases path.cases_head with rfl | ⟨next, ⟨content, mem, -⟩, -⟩
  · exact some_alternative
  · exact first?_of_mem mem

/-- A type which has been reconstructed from a restorable symbol, with what it is reified to. -/
structure Recaptures (definitions : Definitions) (shapes : Shapes) (symbol : Symbol)
    (type : Ty) (world : World) (scope : Scope) (reified : Reified) : Prop where
  reconstructs : Reconstructs definitions shapes symbol type world scope
  captures : world.context.Captures type reified
  /-- Every name which is reached has an entry in some use. -/
  entered : ∀ mention, world.context.Reaches type mention → ∃ other,
    world.context.Reaches type other ∧ other.name = mention.name ∧
      world.context.entryOf? other ≠ none

theorem Reconstructs.recaptures
    (reconstructs : Reconstructs definitions shapes symbol type world scope)
    (reify_eq : type.reify world.context = .ok reified) :
    Recaptures definitions shapes symbol type world scope reified := by
  have spec := Reify.reify_spec world.context type reconstructs.oneKind
  rw [reify_eq] at spec
  simp only [reconstructs.meets_iff] at spec
  obtain ⟨symbol_eq, entered, recorded, others⟩ := spec
  exact ⟨reconstructs, ⟨symbol_eq, fun reaches => recorded _ _ reaches, fun unmet => others _ unmet⟩,
    entered⟩

/-- A world in which what has been recorded of a type is reconstructed. -/
structure Restores (definitions : Definitions) (shapes : Shapes) (scope : Scope) (tree : Tree)
    (rebuilt : Ty) (after : World) (wider : Scope) : Prop where
  grows : scope.store.Grows after.store
  le : Scope.bare scope.toHeap ≤ wider
  sound : (Stage.start definitions shapes).Sound after wider
  denotes : wider.Denotes rebuilt tree

namespace Recaptures

variable (recaptures : Recaptures definitions shapes symbol type world scope reified)

include recaptures

/-- A name which is reached as a nonterminal but has no alternatives is recorded without any. -/
theorem first?_eq_none_of_sort (reaches : world.context.Reaches type (.sort name))
    (none_eq : (definitions.alternativesOf name).first? = none) :
    (reified.definitions.alternativesOf name).first? = none := by
  have resolve_eq : reified.definitions.alternativesOf name = _ :=
    recaptures.captures.resolves reaches rfl
  refine List.head?_eq_none_iff.mpr (List.eq_nil_iff_forall_not_mem.mpr fun rule mem => ?_)
  rw [resolve_eq, OrderedSet.ofList_toList] at mem
  have mem : rule ∈ Reify.rulesOf world.context name := mem
  rcases OrderedSet.mem_union.mp mem with mem | mem
  · exact absurd mem List.not_mem_nil
  · exact OrderedSet.not_mem_of_first?_eq_none none_eq rule
      (recaptures.reconstructs.sound.rules_le mem)

/-- A name which is reached stands for nothing and is recorded without alternatives, or it is reached
as the data type or the alias which it is declared as. -/
theorem exists_declared (reaches : world.context.Reaches type mention) (name_eq : mention.name = name)
    (settled : Settled definitions.alternativesOf symbol name) :
    (definitions.alternativesOf name).first? = none ∧
        (reified.definitions.alternativesOf name).first? = none ∨
      (world.context.Reaches type (.dataRef name) ∧
        ∃ reference, world.registry.lookupData? name = some reference) ∨
      world.context.Reaches type (.aliasRef name) ∧
        ∃ reference, world.registry.lookupAlias? name = some reference := by
  obtain ⟨other, other_reaches, other_eq, entry_ne⟩ := recaptures.entered mention reaches
  rw [name_eq] at other_eq
  cases other with
  | dataRef other | aliasRef other =>
    obtain rfl : other = name := other_eq
    rcases World.declared_of_entry rfl entry_ne with ⟨same, declared⟩ | ⟨same, declared⟩
    · exact .inr (.inl ⟨same ▸ other_reaches, declared⟩)
    · exact .inr (.inr ⟨same ▸ other_reaches, declared⟩)
  | sort other =>
    obtain rfl : other = name := other_eq
    have none_eq := recaptures.reconstructs.first?_eq_none other_reaches settled
    exact .inl ⟨none_eq, recaptures.first?_eq_none_of_sort other_reaches none_eq⟩

/-- What is recorded for a name which is reached is what the name is declared as, if anything. -/
theorem exists_declared_of_reachesName (met : ReachesName world.context type name) :
    (definitions.alternativesOf name).first? = none ∧
        (reified.definitions.alternativesOf name).first? = none ∨
      (world.context.Reaches type (.dataRef name) ∧
        ∃ reference, world.registry.lookupData? name = some reference) ∨
      world.context.Reaches type (.aliasRef name) ∧
        ∃ reference, world.registry.lookupAlias? name = some reference := by
  obtain ⟨mention, reaches, declared⟩ := met
  exact recaptures.exists_declared reaches (Mention.name_of_declared declared)
    (recaptures.reconstructs.settled reaches declared)

/-- A data type stands again for itself, or it has no constructors and becomes opaque. -/
theorem meaning_again_data (reaches : world.context.Reaches type (.dataRef name))
    {reference : DataRef Ty} (declared_eq : world.registry.lookupData? name = some reference) :
    (meaning reified.definitions.alternativesOf shapes name = none ∧
        ∀ production ∈ definitions.alternativesOf name, production.name = none) ∨
      meaning reified.definitions.alternativesOf shapes name =
        some (.dataRef name (shapes.formals name)) := by
  have subject_eq := recaptures.captures.resolves.subjectOf?_data reaches declared_eq
    recaptures.reconstructs.constructorsOf_eq
  cases empty : (world.registry.own.constructorsOf name).isEmpty with
  | true =>
    refine .inl ⟨by simp [meaning, subject_eq, empty], fun production mem => ?_⟩
    by_contra named
    obtain ⟨constructor, constructor_mem, -⟩ := recaptures.reconstructs.sound.complete
      (Registry.lookupData?_eq_some_iff.mp declared_eq) id production mem
      (Option.isSome_iff_ne_none.mpr named)
    rw [List.isEmpty_iff.mp empty] at constructor_mem
    cases constructor_mem
  | false =>
    rw [empty, if_neg Bool.false_ne_true] at subject_eq
    exact .inr (by rw [meaning, subject_eq])

/-- An alias stands again for itself. -/
theorem meaning_again_alias (reaches : world.context.Reaches type (.aliasRef name))
    {reference : AliasRef Ty} (declared_eq : world.registry.lookupAlias? name = some reference) :
    meaning reified.definitions.alternativesOf shapes name =
      meaning definitions.alternativesOf shapes name := by
  obtain ⟨-, is_alias, -, -, body, body_eq, -⟩ := recaptures.reconstructs.alias_ declared_eq
  rw [meaning_of_alias (recaptures.captures.resolves.isAlias reaches declared_eq body_eq),
    meaning_of_alias is_alias]

/-- A name which is reached stands again for the same, or it is a data type which has become
opaque. -/
theorem renews (reaches : world.context.Reaches type mention) (name_eq : mention.name = name)
    (settled : Settled definitions.alternativesOf symbol name) :
    (meaning definitions.alternativesOf shapes).Renews
      (meaning reified.definitions.alternativesOf shapes) name := by
  rcases recaptures.exists_declared reaches name_eq settled with ⟨none_eq, again_eq⟩ |
    ⟨reaches, reference, declared_eq⟩ | ⟨reaches, reference, declared_eq⟩
  · exact .inl (by rw [meaning_eq_none none_eq, meaning_eq_none again_eq])
  · obtain ⟨-, no_alias, some_alternative, -⟩ := recaptures.reconstructs.data declared_eq
    have meaning_eq : meaning definitions.alternativesOf shapes name =
        some (.dataRef name (shapes.formals name)) :=
      meaning_of_data (by simpa [subjectOf?] using some_alternative) no_alias
    rw [Meaning.Renews, meaning_eq]
    rcases recaptures.meaning_again_data reaches declared_eq with ⟨again_eq, -⟩ | again_eq
    · refine .inr ⟨again_eq, fun declared declared_eq => ?_⟩
      obtain rfl := Option.some.inj declared_eq
      rfl
    · exact .inl again_eq
  · exact .inl (recaptures.meaning_again_alias reaches declared_eq)

/-- A name of which it is known what it stands for stands again for this or for nothing. -/
theorem again_eq (settled : Settled definitions.alternativesOf symbol name) :
    meaning reified.definitions.alternativesOf shapes name = none ∨
      meaning reified.definitions.alternativesOf shapes name =
        meaning definitions.alternativesOf shapes name := by
  by_cases met : ∃ mention, world.context.Reaches type mention ∧ mention.name = name
  · obtain ⟨mention, reaches, name_eq⟩ := met
    exact (recaptures.renews reaches name_eq settled).symm.imp_left And.left
  · have get_eq := recaptures.captures.others fun mention reaches name_eq =>
      met ⟨mention, reaches, name_eq⟩
    have get_eq : reified.definitions.get? name = none := get_eq
    exact .inl (meaning_eq_none (by simp [Definitions.alternativesOf, get_eq, OrderedSet.first?]))

theorem again_coherent (settled : Settled definitions.alternativesOf symbol name) {declared : Tree}
    (meaning_eq : meaning reified.definitions.alternativesOf shapes name = some declared) :
    declared.Coherent := by
  have meaning_eq : meaning definitions.alternativesOf shapes name = some declared := by
    rcases recaptures.again_eq settled with none_eq | same
    · cases meaning_eq.symm.trans none_eq
    · exact same ▸ meaning_eq
  rcases settled with reaches | none_eq
  · exact recaptures.reconstructs.restorable.coherent recaptures.reconstructs.solves reaches meaning_eq
  · cases (meaning_eq_none none_eq).symm.trans meaning_eq

/-- The owner of a constructor is found again. -/
theorem finds_owner (goes : GoesThrough definitions.alternativesOf symbol visited) {owner : Symbol}
    (mem : owner ∈ visited.owners) :
    let tree := owner.tree (meaning definitions.alternativesOf shapes)
    tree.IsReference ∨ tree.parameters = [] ∧ ∀ declared,
      meaning reified.definitions.alternativesOf shapes tree.ownerName = some declared →
        declared.name? = some tree.ownerName ∧ declared.parameters = [] := by
  have restorable := recaptures.reconstructs.restorable
  have solves := recaptures.reconstructs.solves
  by_cases is_reference : owner.IsReference
  · obtain ⟨name, actuals, -, tree_eq⟩ :=
      is_reference.exists_named (meaning definitions.alternativesOf shapes)
    rw [tree_eq]
    exact .inl (Meaning.isReference_named
      (fun _ meaning_eq => (isReference_of_meaning meaning_eq).1) actuals)
  · refine .inr ⟨Symbol.parameters_eq_nil is_reference _, fun declared meaning_eq => ?_⟩
    have settled : Settled definitions.alternativesOf symbol
        (owner.tree (meaning definitions.alternativesOf shapes)).ownerName :=
      (restorable.names_ownerName solves goes mem).imp_left goes.reaches
    have meaning_eq : meaning definitions.alternativesOf shapes
        (owner.tree (meaning definitions.alternativesOf shapes)).ownerName = some declared := by
      rcases recaptures.again_eq settled with none_eq | same
      · cases meaning_eq.symm.trans none_eq
      · exact same ▸ meaning_eq
    have some_alternative := first?_of_meaning meaning_eq
    refine ⟨(isReference_of_meaning meaning_eq).2, ?_⟩
    obtain ⟨-, formals_eq⟩ :=
      (restorable.madeUp solves goes mem is_reference).resolve_left some_alternative
    rw [parameters_of_meaning meaning_eq]
    exact (solves _ (settled.resolve_right some_alternative)).formals_eq_nil formals_eq
      some_alternative

/-- What symbols mean which are gone through recurs if the names in them restate declarations. -/
theorem supports_recurs (goes : GoesThrough definitions.alternativesOf symbol visited)
    (restates : ∀ name, visited.Names name →
      (meaning definitions.alternativesOf shapes).Restates
        (meaning reified.definitions.alternativesOf shapes) (ReachesName world.context type) name) :
    visited.Supports (meaning definitions.alternativesOf shapes)
      (Tree.RecursIf (meaning reified.definitions.alternativesOf shapes)
        (ReachesName world.context type)) :=
  Symbol.supports_recurs restates fun _ mem => recaptures.finds_owner goes mem

/-- A name which is reached and has become opaque has formal parameters without names. -/
theorem formals_plain (reaches : Reaches definitions.alternativesOf symbol name)
    (met : ReachesName world.context type name)
    (again_eq : meaning reified.definitions.alternativesOf shapes name = none) :
    ∀ formal ∈ formalsOf definitions.alternativesOf name, ∀ other, ¬formal.Names other := by
  rcases recaptures.exists_declared_of_reachesName met with ⟨none_eq, -⟩ |
    ⟨data_reaches, reference, declared_eq⟩ | ⟨alias_reaches, reference, declared_eq⟩
  · exact fun formal mem => absurd none_eq (first?_of_mem (List.mem_append_left _ mem))
  · obtain ⟨-, unnamed⟩ := (recaptures.meaning_again_data data_reaches declared_eq).resolve_right
      fun same => nomatch again_eq.symm.trans same
    exact recaptures.reconstructs.restorable.hidden name reaches
      (recaptures.reconstructs.data declared_eq).2.1 unnamed
  · obtain ⟨-, is_alias, -⟩ := recaptures.reconstructs.alias_ declared_eq
    rw [recaptures.meaning_again_alias alias_reaches declared_eq, meaning_of_alias is_alias] at again_eq
    cases again_eq

/-- The names which are reached restate their declarations. -/
theorem restates (reaches : Reaches definitions.alternativesOf symbol name) :
    (meaning definitions.alternativesOf shapes).Restates
      (meaning reified.definitions.alternativesOf shapes) (ReachesName world.context type) name := by
  have restorable := recaptures.reconstructs.restorable
  refine restorable.parts_induction (fun name reaches ih => ?_) reaches
  have supports {formal : Symbol} (mem : formal ∈ formalsOf definitions.alternativesOf name) :=
    recaptures.supports_recurs (.inr ⟨name, reaches, List.mem_append_left _ mem⟩)
      fun other names => ih formal (.inl mem) other names
  have exists_formal {declared formal : Tree}
      (meaning_eq : meaning definitions.alternativesOf shapes name = some declared)
      (mem : formal ∈ declared.parameters) : ∃ visited ∈ formalsOf definitions.alternativesOf name,
        visited.tree (meaning definitions.alternativesOf shapes) = formal := by
    rw [parameters_of_meaning meaning_eq, (recaptures.reconstructs.solves name reaches).formals_eq
      (first?_of_meaning meaning_eq)] at mem
    exact List.mem_map.mp mem
  exact
    { renews := fun ⟨mention, met, declared⟩ => recaptures.renews met
        (Mention.name_of_declared declared) (recaptures.reconstructs.settled met declared)
      declares := fun declared meaning_eq =>
        ⟨(isReference_of_meaning meaning_eq).1, (isReference_of_meaning meaning_eq).2,
          restorable.coherent recaptures.reconstructs.solves reaches meaning_eq⟩
      formals := fun declared meaning_eq formal mem => by
        obtain ⟨visited, visited_mem, rfl⟩ := exists_formal meaning_eq mem
        exact (supports visited_mem).tree (Tree.composes_recurs.of_names _)
      hidden := fun met again_eq declared meaning_eq formal mem => by
        obtain ⟨visited, visited_mem, rfl⟩ := exists_formal meaning_eq mem
        exact (supports visited_mem).spreads (Tree.composes_recurs.of_names _)
          (recaptures.formals_plain reaches met again_eq visited visited_mem) }

/-- What is recorded as an alias is declared as one. -/
theorem declared_of_isAlias (met : ReachesName world.context type name)
    (is_alias : IsAlias reified.definitions.alternativesOf name) :
    world.context.Reaches type (.aliasRef name) ∧
      ∃ reference, world.registry.lookupAlias? name = some reference := by
  rcases recaptures.exists_declared_of_reachesName met with ⟨-, again_eq⟩ |
    ⟨reaches, reference, declared_eq⟩ | found
  · exact absurd again_eq (first?_of_isAlias is_alias)
  · obtain ⟨other, parameters, subject_eq⟩ := is_alias
    rw [recaptures.captures.resolves.subjectOf?_data reaches declared_eq
      recaptures.reconstructs.constructorsOf_eq] at subject_eq
    split at subject_eq <;> cases subject_eq
  · exact found

/-- Everything which is reached shows a tree which recurs. -/
theorem exists_recurs (within : world.context.Within type part) : ∃ tree, scope.Denotes part tree ∧
    tree.Recurs (meaning reified.definitions.alternativesOf shapes) := by
  obtain ⟨visited, found, denotes⟩ := recaptures.reconstructs.exists_visited within
  refine ⟨_, denotes, ?_⟩
  rcases found with rfl | goes
  · rfl
  · have supports := recaptures.supports_recurs goes
      fun name names => recaptures.restates (goes.reaches names)
    refine supports.tree (Tree.composes_recurs.of_names _) fun name ⟨mention, mem, declared⟩ => ?_
    exact ⟨mention, within.reaches (denotes.symbol_eq ▸ mem), declared⟩

/-- Constructors which are reached keep their owners. -/
theorem keeps_of_denotes {tree : Tree} (denotes : scope.Denotes part tree)
    (within : world.context.Within type part) {owner : Symbol} (mem : owner ∈ part.symbol.owners) :
    (meaning reified.definitions.alternativesOf shapes).Keeps owner := by
  obtain ⟨data, parameters, rfl⟩ := Tree.exists_of_mem_owners (denotes.symbol_eq ▸ mem)
  obtain ⟨mention, mention_mem, declared⟩ :=
    Symbol.names_of_mem_owners mem (Symbol.names_dataRef.mpr (.inl rfl))
  have settled := recaptures.reconstructs.settled (within.reaches mention_mem) declared
  exact keeps_of_coherent rfl fun declared => recaptures.again_coherent settled

/-- Formal parameters are recorded as they are, and they recur. -/
theorem formalsOf_again (met : ReachesName world.context type name)
    (some_alternative : (reified.definitions.alternativesOf name).first? ≠ none) :
    Reaches definitions.alternativesOf symbol name ∧
      (definitions.alternativesOf name).first? ≠ none ∧
      formalsOf reified.definitions.alternativesOf name = (shapes.formals name).map Tree.symbol ∧
      ∀ formal ∈ shapes.formals name,
        formal.Recurs (meaning reified.definitions.alternativesOf shapes) := by
  have recur {mention : Mention} {types : List Ty} (reaches : world.context.Reaches type mention)
      (subset : types ⊆ world.context.partsOf mention)
      (denote : scope.DenoteAll types (shapes.formals name)) : ∀ formal ∈ shapes.formals name,
        formal.Recurs (meaning reified.definitions.alternativesOf shapes) := by
    rw [Scope.denoteAll_iff] at denote
    intro formal mem
    obtain ⟨type, type_mem, denotes⟩ := Scope.exists_of_forall₂ denote.flip mem
    obtain ⟨tree, tree_denotes, recurs⟩ :=
      recaptures.exists_recurs (.inr ⟨mention, reaches, subset type_mem⟩)
    exact denotes.unique tree_denotes ▸ recurs
  rcases recaptures.exists_declared_of_reachesName met with ⟨-, again_eq⟩ |
    ⟨reaches, reference, declared_eq⟩ | ⟨reaches, reference, declared_eq⟩
  · exact absurd again_eq some_alternative
  · obtain ⟨name_reaches, -, name_some, -, denote⟩ := recaptures.reconstructs.data declared_eq
    have subject_eq := recaptures.captures.resolves.subjectOf?_data reaches declared_eq
      recaptures.reconstructs.constructorsOf_eq
    have formals_eq := recaptures.captures.resolves.formalsOf_data reaches declared_eq
      recaptures.reconstructs.constructorsOf_eq
    have not_empty : (world.registry.own.constructorsOf name).isEmpty = false := by
      by_contra empty
      rw [Bool.not_eq_false] at empty
      rw [if_pos empty] at subject_eq
      exact some_alternative (by simpa [subjectOf?] using subject_eq)
    rw [not_empty, if_neg Bool.false_ne_true, denote.symbols_trees] at formals_eq
    exact ⟨name_reaches, name_some, formals_eq, recur reaches
      (fun _ mem => (Context.mem_partsOf_data declared_eq).mpr (.inl mem)) denote⟩
  · obtain ⟨name_reaches, is_alias, -, denote, body, body_eq, -⟩ :=
      recaptures.reconstructs.alias_ declared_eq
    have formals_eq := recaptures.captures.resolves.formalsOf_alias reaches declared_eq body_eq
    rw [denote.symbols_trees] at formals_eq
    exact ⟨name_reaches, first?_of_isAlias is_alias, formals_eq, recur reaches
      (fun _ mem => (Context.mem_partsOf_alias declared_eq).mpr (.inl mem)) denote⟩

/-- A recorded formal parameter is the symbol of what a formal parameter means. -/
theorem exists_formal (met : ReachesName world.context type name) {formal : Symbol}
    (mem : formal ∈ formalsOf reified.definitions.alternativesOf name) :
    Reaches definitions.alternativesOf symbol name ∧
      ∃ visited ∈ formalsOf definitions.alternativesOf name,
        formal = (visited.tree (meaning definitions.alternativesOf shapes)).symbol := by
  obtain ⟨reaches, some_alternative, formals_eq, -⟩ :=
    recaptures.formalsOf_again met (first?_of_mem (List.mem_append_left _ mem))
  rw [formals_eq, (recaptures.reconstructs.solves name reaches).formals_eq some_alternative,
    formalTrees, List.map_map] at mem
  obtain ⟨visited, visited_mem, rfl⟩ := List.mem_map.mp mem
  exact ⟨reaches, visited, visited_mem, rfl⟩

/-- The recorded body of an alias is the symbol of what its body means. -/
theorem exists_content (met : ReachesName world.context type name)
    (is_alias : IsAlias reified.definitions.alternativesOf name) {content : Symbol}
    (mem : content ∈ contentsOf reified.definitions.alternativesOf name) :
    IsAlias definitions.alternativesOf name ∧ ∃ visited,
      (visited = .prim .value ∨ visited ∈ contentsOf definitions.alternativesOf name) ∧
        content = (visited.tree (meaning definitions.alternativesOf shapes)).symbol := by
  obtain ⟨reaches, reference, declared_eq⟩ := recaptures.declared_of_isAlias met is_alias
  obtain ⟨name_reaches, name_alias, -, -, body, body_eq, denotes⟩ :=
    recaptures.reconstructs.alias_ declared_eq
  rw [contentsOf_alias is_alias,
    recaptures.captures.resolves.bodySymbol?_alias reaches declared_eq body_eq] at mem
  obtain rfl := List.mem_singleton.mp mem
  rw [(recaptures.reconstructs.solves name name_reaches).body_eq name_alias, bodyTree] at denotes
  refine ⟨name_alias, ?_⟩
  cases symbol_eq : bodySymbol? (definitions.alternativesOf name) with
  | none =>
    rw [symbol_eq] at denotes
    exact ⟨.prim .value, .inl rfl, denotes.symbol_eq⟩
  | some visited =>
    rw [symbol_eq] at denotes
    exact ⟨visited, .inr (by simp [contentsOf_alias name_alias, symbol_eq]), denotes.symbol_eq⟩

/-- The symbols in the alternatives which are recorded for a name are those of the types in its
declaration. -/
theorem exists_part (met : ReachesName world.context type name) {content : Symbol}
    (mem : content ∈ formalsOf reified.definitions.alternativesOf name ++
      contentsOf reified.definitions.alternativesOf name) :
    ∃ user label, ∃ part ∈ world.context.partsOf user, world.context.Reaches type user ∧
      user.declared? = some name ∧ content = Field.symbol ⟨label, part.symbol⟩ := by
  rcases recaptures.exists_declared_of_reachesName met with ⟨-, again_eq⟩ |
    ⟨reaches, reference, declared_eq⟩ | ⟨reaches, reference, declared_eq⟩
  · exact absurd again_eq (first?_of_mem mem)
  · obtain ⟨label, part, part_mem, content_eq⟩ := recaptures.captures.resolves.exists_part_data
      reaches declared_eq recaptures.reconstructs.constructorsOf_eq
      (recaptures.reconstructs.declaredConstructors_eq ▸ List.Subset.refl _) mem
    exact ⟨_, label, part, part_mem, reaches, rfl, content_eq⟩
  · obtain ⟨-, -, -, -, body, body_eq, -⟩ := recaptures.reconstructs.alias_ declared_eq
    obtain ⟨label, part, part_mem, content_eq⟩ :=
      recaptures.captures.resolves.exists_part_alias reaches declared_eq body_eq mem
    exact ⟨_, label, part, part_mem, reaches, rfl, content_eq⟩

/-- A name in the recorded alternatives is reached. -/
theorem reachesName_of_mem (met : ReachesName world.context type name) {content : Symbol}
    (mem : content ∈ formalsOf reified.definitions.alternativesOf name ++
      contentsOf reified.definitions.alternativesOf name) (names : content.Names other) :
    ReachesName world.context type other := by
  obtain ⟨user, label, part, part_mem, reaches, -, rfl⟩ := recaptures.exists_part met mem
  obtain ⟨next, next_mem, declared⟩ := Field.names_symbol.mp names
  exact ⟨next, reaches.uses ⟨part, part_mem, next_mem⟩, declared⟩

/-- What the recorded alternatives of a name lead to the original ones lead to as well, unless it has
no alternatives. -/
theorem path_of_leads (met : ReachesName world.context type name)
    (leads : Leads reified.definitions.alternativesOf name other) :
    Relation.ReflTransGen (Leads definitions.alternativesOf) name other ∨
      (definitions.alternativesOf other).first? = none := by
  obtain ⟨content, mem, names⟩ := leads
  obtain ⟨user, label, part, part_mem, reaches, declared, rfl⟩ := recaptures.exists_part met mem
  obtain ⟨same, visited, same_declared, name_reaches, found, denotes⟩ :=
    recaptures.reconstructs.exists_visited_of_mem part_mem
  obtain rfl : name = same := Option.some.inj (declared.symm.trans same_declared)
  have names := denotes.symbol_eq ▸ Field.names_symbol.mp names
  rcases found with rfl | visited_mem
  · obtain ⟨_, next_mem, -⟩ := names
    cases next_mem
  · refine (recaptures.reconstructs.restorable.involves_of_names recaptures.reconstructs.solves
      (.inr ⟨name, name_reaches, visited_mem⟩) names).imp_left fun involves => ?_
    exact Reaches.of_mem visited_mem involves.reaches

/-- What recorded alternatives lead to is led to by the original ones if it has some. -/
theorem path_of_path (met : ReachesName world.context type other)
    (path : Relation.ReflTransGen (Leads reified.definitions.alternativesOf) other name)
    (some_alternative : (definitions.alternativesOf name).first? ≠ none) :
    Relation.ReflTransGen (Leads definitions.alternativesOf) other name := by
  induction path using Relation.ReflTransGen.head_induction_on with
  | refl => exact .refl
  | head leads path ih =>
    obtain ⟨content, mem, names⟩ := leads
    have rest := ih (recaptures.reachesName_of_mem met mem names)
    exact ((recaptures.path_of_leads met ⟨content, mem, names⟩).resolve_right
      (first?_ne_none_of_path rest some_alternative)).trans rest

/-- If the symbol of what a symbol means reaches a name by the recorded alternatives, then the latter
symbol reaches it by the original ones, unless it has none. -/
theorem reaches_of_tree (goes : GoesThrough definitions.alternativesOf symbol visited)
    (met : ∀ other, (visited.tree (meaning definitions.alternativesOf shapes)).symbol.Names other →
      ReachesName world.context type other)
    (reaches : Reaches reified.definitions.alternativesOf
      (visited.tree (meaning definitions.alternativesOf shapes)).symbol name)
    (some_alternative : (definitions.alternativesOf name).first? ≠ none) :
    Reaches definitions.alternativesOf visited name := by
  obtain ⟨first, names, path⟩ := reaches
  have path := recaptures.path_of_path (met first names) path some_alternative
  have involves := (recaptures.reconstructs.restorable.involves_of_names
    recaptures.reconstructs.solves goes names).resolve_right
      (first?_ne_none_of_path path some_alternative)
  obtain ⟨start, start_names, start_path⟩ := involves.reaches
  exact ⟨start, start_names, start_path.trans path⟩

/-- The names which are reached can be reconstructed from what is recorded. -/
theorem regular (met : ReachesName world.context type name) :
    Regular reified.definitions.alternativesOf shapes name where
  direct := by
    rintro ⟨formal, mem, reaches⟩
    have met_of_names {other : String} (names : formal.Names other) :=
      recaptures.reachesName_of_mem met (List.mem_append_left _ mem) names
    obtain ⟨name_reaches, visited, visited_mem, rfl⟩ := recaptures.exists_formal met mem
    have visited_mem' := List.mem_append_left (contentsOf definitions.alternativesOf name) visited_mem
    exact recaptures.reconstructs.restorable.direct name name_reaches ⟨visited, visited_mem,
      recaptures.reaches_of_tree (.inr ⟨name, name_reaches, visited_mem'⟩) (fun _ => met_of_names)
        reaches (first?_of_mem visited_mem')⟩
  stable content mem owner owner_mem := by
    obtain ⟨user, label, part, part_mem, user_reaches, -, rfl⟩ := recaptures.exists_part met mem
    obtain ⟨tree, denotes, -⟩ := recaptures.exists_recurs (.inr ⟨user, user_reaches, part_mem⟩)
    rw [Field.owners_symbol] at owner_mem
    exact recaptures.keeps_of_denotes denotes (.inr ⟨user, user_reaches, part_mem⟩) owner_mem
  solves :=
    { formals_eq := fun some_alternative => by
        obtain ⟨-, -, formals_eq, recur⟩ := recaptures.formalsOf_again met some_alternative
        rw [formalTrees, formals_eq, List.map_map]
        exact ((List.map_congr_left recur).trans (List.map_id _)).symm
      body_eq := fun is_alias => by
        obtain ⟨reaches, reference, declared_eq⟩ := recaptures.declared_of_isAlias met is_alias
        obtain ⟨-, -, -, -, body, body_eq, body_denotes⟩ :=
          recaptures.reconstructs.alias_ declared_eq
        obtain ⟨tree, denotes, recurs⟩ := recaptures.exists_recurs
          (.inr ⟨_, reaches, (Context.mem_partsOf_alias declared_eq).mpr (.inr body_eq)⟩)
        rw [bodyTree, recaptures.captures.resolves.bodySymbol?_alias reaches declared_eq body_eq]
        rw [← denotes.unique body_denotes, denotes.symbol_eq]
        exact recurs.symm }
  acyclic is_alias some_formal content mem reaches := by
    have met_of_names {other : String} (names : content.Names other) :=
      recaptures.reachesName_of_mem met (List.mem_append_right _ mem) names
    obtain ⟨formal, formal_mem⟩ := List.exists_mem_of_ne_nil _ some_formal
    obtain ⟨name_reaches, visited_formal, visited_formal_mem, -⟩ :=
      recaptures.exists_formal met formal_mem
    obtain ⟨name_alias, visited, rfl | visited_mem, rfl⟩ :=
      recaptures.exists_content met is_alias mem
    · obtain ⟨_, ⟨_, mention_mem, -⟩, -⟩ := reaches
      cases mention_mem
    · refine recaptures.reconstructs.restorable.acyclic name name_reaches name_alias
        (List.ne_nil_of_mem visited_formal_mem) visited visited_mem ?_
      exact recaptures.reaches_of_tree
        (.inr ⟨name, name_reaches, List.mem_append_right _ visited_mem⟩) (fun _ => met_of_names)
        reaches (first?_of_isAlias name_alias)

/-- What reconstructing the recorded symbol reaches is reached from the type. -/
theorem reachesName_of_reaches
    (reaches : Reaches reified.definitions.alternativesOf reified.symbol name) :
    ReachesName world.context type name := by
  obtain ⟨first, ⟨mention, mem, declared⟩, path⟩ := reaches
  rw [recaptures.captures.symbol_eq] at mem
  induction path with
  | refl => exact ⟨mention, ⟨mention, mem, .refl⟩, declared⟩
  | tail _ leads ih =>
    obtain ⟨content, content_mem, names⟩ := leads
    exact recaptures.reachesName_of_mem ih content_mem names

/-- Reconstructing what is recorded ends, and the result shows what the type shows. -/
theorem reconstruct_meets : reified.reconstruct.Meets { store := world.store }
    (fun rebuilt after => ∃ wider, Restores reified.definitions shapes scope
      (symbol.tree (meaning definitions.alternativesOf shapes)) rebuilt after wider)
    fun _ _ => False := by
  have store_eq := recaptures.reconstructs.sound.store_eq
  have sound := Stage.sound_start reified.definitions shapes scope.toHeap
  obtain ⟨tree, denotes, recurs⟩ := recaptures.exists_recurs (.inl rfl)
  have symbol_eq := recaptures.captures.symbol_eq
  have builds := Stage.typeWithin_builds le_rfl sound
    (fun name reaches => recaptures.regular (recaptures.reachesName_of_reaches reaches))
    (fun _ _ _ _ => ⟨id, False.elim⟩) fun owner mem =>
      recaptures.keeps_of_denotes denotes (.inl rfl) (symbol_eq ▸ mem)
  obtain rfl := denotes.unique recaptures.reconstructs.denotes
  rw [← store_eq]
  refine Building.Meets.mono builds ?_ fun _ _ => id
  rintro rebuilt after ⟨extends_, wider, le, after_sound, rebuilt_denotes⟩
  refine ⟨wider, extends_.grows, le, after_sound, ?_⟩
  rw [symbol_eq, denotes.symbol_eq] at rebuilt_denotes
  exact Eq.mp (congrArg _ recurs) rebuilt_denotes

end Recaptures

end Reconstruct

end Reification
