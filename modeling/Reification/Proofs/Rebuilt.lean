import Reification.Proofs.Recorded

/-!
# Rebuilt types

Reconstructing the reified value of a described type into a fresh registry ends, and the result shows
what the type shows.  Everything which has alternatives is declared again.
-/

namespace Reification

/-- The scope of a heap in which no alias stands for a declaration. -/
def Scope.bare (heap : Heap) : Scope := { heap with Leaf := fun _ => False }

namespace Reconstruct

/-- The stage at which nothing has been declared from some definitions. -/
def Stage.start (definitions : Definitions) (shapes : Shapes) : Stage where
  resolve := definitions.alternativesOf
  shapes
  waiting _ := False
  expanding _ := False
  gone name := (definitions.alternativesOf name).toList
  depth := maxDepth definitions

/-- A world with a fresh registry is sound. -/
theorem Stage.sound_start (definitions : Definitions) (shapes : Shapes) (heap : Heap) :
    (Stage.start definitions shapes).Sound { store := heap.store } (Scope.bare heap) where
  store_eq := rfl
  leaf_iff {reference} := by simp [Scope.bare, Registry.lookup?, Registry.layers]
  inherited_eq := rfl
  declares declared := by simp [Registry.lookup?, Registry.layers] at declared
  constructs mem := by simp [Layer.constructorsOf] at mem
  arranged declared := by simp [Registry.lookup?, Registry.layers] at declared
  gone_eq _ := rfl
  begun := False.elim
  rules_le mem := absurd mem List.not_mem_nil
  remaining := by
    refine ⟨definitions.names.toFinset, ?_, fun name some_alternative _ _ =>
      mem_names_of_first? some_alternative⟩
    have le : definitions.size ≤ definitions.size * (definitions.size + 1) :=
      Nat.le_mul_of_pos_right _ (Nat.succ_pos _)
    exact (card_names_le definitions).trans (le.trans (Nat.le_succ _))

end Reconstruct

namespace Reify.Context

open Reconstruct (Stage Complete Covered formalsOf contentsOf mentionsOf)

variable {context : Context} {heap : Heap} {type : Ty} {reified : Reified} {name : String}

/-- Whether equal constructors of a data type which is reached have the same attributes in the own
layer of the registry.  Constructors which are declared while an alias is pending may become equal
when its slot is filled. -/
def Consistent (context : Context) (type : Ty) : Prop :=
  ∀ ⦃name⦄, context.Reaches type (.dataRef name) →
    ∀ one ∈ context.registry.own.constructorsOf name,
    ∀ other ∈ context.registry.own.constructorsOf name,
    context.store.sameConstructor one other = some true → one.attributes = other.attributes

/-- The stage at which nothing has been declared from what is recorded of a type. -/
noncomputable def start (context : Context) (heap : Heap) (reified : Reified) : Stage :=
  .start reified.definitions (.plain reified.definitions.alternativesOf (context.declaredBody heap))

/-- A world in which the value of a type has been reconstructed. -/
structure Rebuilds (context : Context) (heap : Heap) (type : Ty) (reified : Reified) (rebuilt : Ty)
    (after : World) (wider : Scope) : Prop where
  grows : context.store.Grows after.store
  le : Scope.bare heap ≤ wider
  sound : (context.start heap reified).Sound after wider
  denotes : wider.Denotes rebuilt (type.symbol.tree (context.meaning (context.declaredBody heap)))
  complete : Complete reified.definitions.alternativesOf (fun _ => False) after
  covered : ∀ mention ∈ type.symbol.mentions, Covered reified.definitions.alternativesOf after mention

/-- Reconstructing the value of a described type ends and shows what the type shows. -/
theorem Describes.reconstruct_meets (describes : context.Describes heap type)
    (captures : context.Captures type reified) :
    reified.reconstruct.Meets { store := context.store }
      (fun rebuilt after => ∃ wider, context.Rebuilds heap type reified rebuilt after wider)
      fun _ _ => False := by
  have resolves := captures.resolves
  have sound : (context.start heap reified).Sound _ _ := Stage.sound_start _ _ heap
  rw [describes.store_eq] at sound
  have reached {name : String} (reaches : Reconstruct.Reaches reified.definitions.alternativesOf
      reified.symbol name) : ∃ mention, context.Reaches type mention ∧
        mention.declared? = some name :=
    resolves.reaches_of_reaches describes (captures.symbol_eq ▸ reaches)
  have builds := Stage.typeWithin_builds le_rfl sound (fun name reaches => by
      obtain ⟨mention, reaches, declared⟩ := reached reaches
      exact resolves.regular describes reaches declared)
    (fun _ _ _ _ => ⟨id, False.elim⟩) fun owner mem =>
      resolves.stable describes (.inl rfl) (captures.symbol_eq ▸ mem)
  have keeps : Reconstruct.Keeps reified.definitions.alternativesOf _ _ reified.reconstruct _ :=
    Reconstruct.typeWithin_keeps _ reified.symbol { store := context.store }
  refine Building.Meets.mono (builds.and keeps) ?_ fun _ _ failed => failed.1
  rintro rebuilt after ⟨⟨extends_, wider, le, after_sound, denotes⟩, advances, covered⟩
  have tree_eq := resolves.tree_eq describes (.inl rfl) (context.declaredBody heap)
  rw [captures.symbol_eq] at denotes covered
  refine ⟨wider, extends_.grows, le, after_sound, tree_eq ▸ denotes,
    advances.complete fun name type declared => ?_, covered⟩
  simp [Registry.lookup?, Registry.layers] at declared

/-- A constructor which has been declared again comes from a declared one with the same content. -/
theorem Captures.exists_original (captures : context.Captures type reified)
    (describes : context.Describes heap type) {wider : Scope}
    (reaches : context.Reaches type (.dataRef name)) {declared : DataRef Ty}
    {constructors : List (Constructor Ty)}
    (declared_eq : context.registry.lookupData? name = some declared)
    (constructors_eq : context.registry.constructorsOf context.store name = some constructors)
    {production : Production} (mem : production ∈ reified.definitions.alternativesOf name)
    {constructor : Constructor Ty}
    (matches_ : (context.start heap reified).Matches wider production constructor) :
    ∃ original ∈ constructors,
      original.production (.dataRef name (Ty.symbols declared.parameters)) = production ∧
      original.name = constructor.name ∧
      wider.DenoteFields constructor.fields (context.content heap original).2 ∧
      Ty.symbolsOfFields constructor.fields = Ty.symbolsOfFields original.fields := by
  obtain ⟨_, other_eq, le, -⟩ := describes.exists_constructors reaches
  obtain rfl := Option.some.inj (constructors_eq.symm.trans other_eq)
  obtain ⟨original, original_mem, rfl⟩ :=
    (captures.resolves.mem_data reaches declared_eq constructors_eq).mp mem
  obtain ⟨name_eq, denote⟩ := matches_
  have content_eq := captures.resolves.fieldTrees_eq describes reaches (le original_mem)
  have denote' : wider.DenoteFields constructor.fields (context.content heap original).2 :=
    content_eq ▸ denote
  exact ⟨original, original_mem, rfl, Option.some.inj name_eq, denote',
    denote'.symbols_eq (describes.fields_denote reaches (le original_mem))⟩

namespace Rebuilds

variable {rebuilt : Ty} {after : World} {wider : Scope}

/-- A name which is covered covers what its declaration mentions, apart from nonterminals in the
bounds of a data type without constructors. -/
theorem covered_of_uses (rebuilds : context.Rebuilds heap type reified rebuilt after wider)
    (describes : context.Describes heap type) (captures : context.Captures type reified)
    {mention next : Mention} (reaches : context.Reaches type mention)
    (covered : Covered reified.definitions.alternativesOf after mention)
    (uses : context.Uses mention next) (known : next.declared? ≠ none ∨
      (reified.definitions.alternativesOf mention.name).first? ≠ none) :
    Covered reified.definitions.alternativesOf after next := by
  obtain ⟨name, declared⟩ : ∃ name, mention.declared? = some name := by
    cases mention with
    | dataRef name | aliasRef name => exact ⟨name, rfl⟩
    | sort name => simp [Uses, partsOf] at uses
  have name_eq : mention.name = name := by
    cases mention <;> simp_all [Mention.declared?, Mention.name]
  rw [name_eq] at known
  obtain ⟨some_alternative, mem⟩ :=
    captures.resolves.mem_mentionsOf describes reaches declared uses known
  have declared_after : after.registry.lookup? name ≠ none := by
    cases mention with
    | dataRef other | aliasRef other =>
      obtain rfl := Option.some.inj declared
      exact covered some_alternative
    | sort other => cases declared
  obtain ⟨type, lookup_eq⟩ := Option.ne_none_iff_exists'.mp declared_after
  exact (rebuilds.complete lookup_eq id).2 next mem

/-- Every data type and alias which is reached is covered. -/
theorem covered_of_declared (rebuilds : context.Rebuilds heap type reified rebuilt after wider)
    (describes : context.Describes heap type) (captures : context.Captures type reified)
    {mention : Mention} (reaches : context.Reaches type mention)
    (declared : mention.declared? ≠ none) :
    Covered reified.definitions.alternativesOf after mention := by
  obtain ⟨first, mem, path⟩ := reaches
  induction path with
  | refl => exact rebuilds.covered first mem
  | @tail user next path uses ih =>
    refine rebuilds.covered_of_uses describes captures ⟨first, mem, path⟩ (ih ?_) uses (.inl declared)
    rintro none
    cases user with
    | dataRef name | aliasRef name => cases none
    | sort name => simp [Uses, partsOf] at uses

/-- A data type which has constructors is declared again with formal parameters which show the
same. -/
theorem exists_data (rebuilds : context.Rebuilds heap type reified rebuilt after wider)
    (describes : context.Describes heap type) (captures : context.Captures type reified)
    (reaches : context.Reaches type (.dataRef name)) {declared : DataRef Ty}
    (declared_eq : context.registry.lookupData? name = some declared)
    (some_alternative : (reified.definitions.alternativesOf name).first? ≠ none) :
    ∃ reference, after.registry.lookupData? name = some reference ∧ reference.name = name ∧
      wider.Known (.dataRef reference) ∧
      wider.DenoteAll reference.parameters (Ty.plainTrees declared.parameters) := by
  have declared_after :=
    rebuilds.covered_of_declared describes captures reaches (by simp [Mention.declared?])
    some_alternative
  obtain ⟨again, lookup_eq⟩ := Option.ne_none_iff_exists'.mp declared_after
  obtain ⟨constructors, constructors_eq, -⟩ := describes.exists_constructors reaches
  cases rebuilds.sound.declares lookup_eq with
  | @data reference name_eq meaning_eq known denote =>
    refine ⟨reference, Registry.lookupData?_eq_some_iff.mpr lookup_eq, name_eq, known, ?_⟩
    have formals_eq := captures.resolves.formalsOf_data reaches declared_eq constructors_eq
    have some_constructor : constructors.isEmpty = false := by
      by_contra empty
      have subject_eq := captures.resolves.subjectOf?_data reaches declared_eq constructors_eq
      rw [if_pos (by simpa using empty)] at subject_eq
      exact some_alternative (by simpa [Reconstruct.subjectOf?] using subject_eq)
    rw [some_constructor] at formals_eq
    have trees_eq : (context.start heap reified).shapes.formals name =
        Ty.plainTrees declared.parameters := by
      refine (Reconstruct.Shapes.formals_plain ..).trans ?_
      simp [formals_eq, Ty.plainTrees, Function.comp_def]
    exact trees_eq ▸ denote
  | alias_ _ is_alias => exact absurd is_alias (captures.resolves.not_isAlias describes reaches)

/-- An alias is declared again with the same formal parameters and the same body. -/
theorem exists_alias (rebuilds : context.Rebuilds heap type reified rebuilt after wider)
    (describes : context.Describes heap type) (captures : context.Captures type reified)
    (reaches : context.Reaches type (.aliasRef name)) {declared : AliasRef Ty} {body : Ty}
    (declared_eq : context.registry.lookupAlias? name = some declared)
    (body_eq : context.store.body? declared = some body) :
    ∃ reference again, after.registry.lookupAlias? name = some reference ∧
      reference.name = name ∧ wider.Known (.aliasRef reference) ∧
      after.store.body? reference = some again ∧
      wider.Denotes again (context.declaredBody heap name) ∧
      Ty.symbols reference.parameters = Ty.symbols declared.parameters := by
  have first_eq := captures.resolves.first?_alias reaches declared_eq body_eq
  have declared_after :=
    rebuilds.covered_of_declared describes captures reaches (by simp [Mention.declared?])
    (by simp [first_eq])
  obtain ⟨found, lookup_eq⟩ := Option.ne_none_iff_exists'.mp declared_after
  obtain ⟨_, _, other_eq, -, -, are_formals, -⟩ := describes.alias_ reaches
  obtain rfl := Option.some.inj (declared_eq.symm.trans other_eq)
  have is_alias := captures.resolves.isAlias reaches declared_eq body_eq
  cases rebuilds.sound.declares lookup_eq with
  | data _ meaning_eq =>
    cases meaning_eq.symm.trans (Reconstruct.meaning_of_alias is_alias)
  | @alias_ reference name_eq _ known denote filled =>
    obtain ⟨again, again_eq, denotes⟩ := filled id
    refine ⟨reference, again, Registry.lookupAlias?_eq_some_iff.mpr lookup_eq, name_eq, known,
      rebuilds.sound.store_eq ▸ again_eq, denotes, ?_⟩
    have trees_eq : (context.start heap reified).shapes.formals name =
        Ty.plainTrees declared.parameters := by
      refine (Reconstruct.Shapes.formals_plain ..).trans ?_
      simp [captures.resolves.formalsOf_alias reaches declared_eq body_eq, Ty.plainTrees,
        Function.comp_def]
    exact (trees_eq ▸ denote).symbols_eq (describes.denote_formals are_formals
      fun formal mem => .inr ⟨_, reaches, (mem_partsOf_alias declared_eq).mpr (.inl mem)⟩)

/-- The constructors which have been declared again are those which the data type had, provided that
equal ones in the own layer of its registry had the same attributes. -/
theorem mem_production_iff (rebuilds : context.Rebuilds heap type reified rebuilt after wider)
    (describes : context.Describes heap type) (captures : context.Captures type reified)
    (reaches : context.Reaches type (.dataRef name)) {declared : DataRef Ty}
    {constructors : List (Constructor Ty)}
    (declared_eq : context.registry.lookupData? name = some declared)
    (constructors_eq : context.registry.constructorsOf context.store name = some constructors)
    (consistent : context.Consistent type) {production : Production} :
    production ∈ (after.registry.own.constructorsOf name).map
        (·.production (.dataRef name (Ty.symbols declared.parameters))) ↔
      production ∈ constructors.map
        (·.production (.dataRef name (Ty.symbols declared.parameters))) := by
  have production_of_eq {constructor original : Constructor Ty}
      (name_eq : original.name = constructor.name)
      (symbols_eq : Ty.symbolsOfFields constructor.fields = Ty.symbolsOfFields original.fields)
      (attributes_eq : original.attributes = constructor.attributes) (subject : Symbol) :
      constructor.production subject = original.production subject := by
    rw [Constructor.production, Constructor.production, name_eq, symbols_eq, attributes_eq]
  constructor
  · intro mem
    obtain ⟨constructor, constructor_mem, rfl⟩ := List.mem_map.mp mem
    obtain ⟨-, -, production, production_mem, matches_, attributes_eq⟩ :=
      rebuilds.sound.constructs constructor_mem
    obtain ⟨original, original_mem, rfl, name_eq, -, symbols_eq⟩ := captures.exists_original
      describes reaches declared_eq constructors_eq production_mem matches_
    exact List.mem_map.mpr ⟨original, original_mem,
      (production_of_eq name_eq symbols_eq attributes_eq _).symm⟩
  · intro mem
    obtain ⟨_, other_eq, -, -, agree⟩ := describes.exists_constructors reaches
    obtain rfl := Option.some.inj (constructors_eq.symm.trans other_eq)
    have production_mem := (captures.resolves.mem_data reaches declared_eq constructors_eq).mpr
      (List.mem_map.mp mem)
    obtain ⟨first, first_eq⟩ : ∃ first,
        (reified.definitions.alternativesOf name).first? = some first := by
      rcases first_eq : (reified.definitions.alternativesOf name).first? with _ | first
      · exact absurd production_mem (OrderedSet.not_mem_of_first?_eq_none first_eq _)
      · exact ⟨first, rfl⟩
    obtain ⟨reference, reference_eq, -⟩ :=
      rebuilds.exists_data describes captures reaches declared_eq (by simp [first_eq])
    obtain ⟨original, original_mem, rfl⟩ := List.mem_map.mp mem
    obtain ⟨constructor, constructor_mem, matches_⟩ := rebuilds.sound.complete
      (Registry.lookupData?_eq_some_iff.mp reference_eq) id _ production_mem rfl
    refine List.mem_map.mpr ⟨constructor, constructor_mem, ?_⟩
    -- The constructor matches this alternative and comes from one with its attributes.
    obtain ⟨-, -, source, source_mem, source_matches, attributes_eq⟩ :=
      rebuilds.sound.constructs constructor_mem
    obtain ⟨one, one_mem, one_eq, one_name, one_denote, symbols_eq⟩ := captures.exists_original
      describes reaches declared_eq constructors_eq production_mem matches_
    obtain ⟨other, other_mem, rfl, other_name, other_denote, -⟩ :=
      captures.exists_original describes reaches declared_eq constructors_eq source_mem
        source_matches
    have same_attributes := agree (consistent reaches) one one_mem other other_mem
      (Prod.ext (one_name.trans other_name.symm)
        (Tree.tuple.inj ((Scope.Denotes.tuple one_denote).unique (.tuple other_denote))))
    rw [← one_eq]
    exact production_of_eq one_name symbols_eq (same_attributes.trans attributes_eq) _

end Rebuilds

end Reify.Context

namespace Reify.Listing

theorem consistent : context.Consistent listOfPairs := by
  intro name reaches one one_mem other other_mem same
  obtain data | alias_ := reaches_iff.mp reaches
  case inr => cases alias_
  cases data
  obtain rfl | rfl := List.mem_pair.mp (show one ∈ [empty, more] from one_mem) <;>
    obtain rfl | rfl := List.mem_pair.mp (show other ∈ [empty, more] from other_mem) <;> rfl

end Reify.Listing

/-! A data type with two constructors which were declared with different attributes while one of
their aliases was pending.  They have become equal since its slot was filled. -/

namespace Reify.Merging

def owner : DataRef Ty := ⟨0, "D", []⟩

/-- The alias which was pending. -/
def filled : AliasRef Ty := ⟨0, "A", []⟩

/-- The alias which is declared. -/
def declared : AliasRef Ty := ⟨1, "A", []⟩

def first : Constructor Ty := ⟨1, owner, "c", [⟨none, .aliasRef filled⟩], .ofList [.tag "x"]⟩

def second : Constructor Ty := ⟨2, owner, "c", [⟨none, .aliasRef declared⟩], .ofList [.tag "y"]⟩

def context : Context where
  store := ⟨3, #[some (.prim .int), some (.prim .int)]⟩
  registry :=
    { own := {
        declarations := ⟨[("A", .aliasRef declared), ("D", .dataRef owner)], by decide⟩
        constructors := ⟨[("D", [first, second])], by decide⟩ } }

def heap : Heap :=
  .of context.store [.dataRef owner, .aliasRef filled, .aliasRef declared, .constructor first,
      .constructor second]
    (by simp [Ty.isSameObject, owner, filled, declared, first, second])
    (by simp [Store.HasMade, context, owner, filled, declared, first, second])
    (by simp [Ty.references, Ty.referencesOfAll, Ty.referencesOfFields, Store.behind, Store.body?,
      context, owner, filled, declared, first, second])

theorem reaches_iff {mention : Mention} : context.Reaches (.dataRef owner) mention ↔
    mention = .dataRef "D" ∨ mention = .aliasRef "A" := by
  constructor
  · intro reaches
    have closed : mention ∈ [.dataRef "D", .aliasRef "A"] :=
      reaches.mem_of_closed (by decide) (by decide)
    simpa using closed
  · have uses : context.Uses (.dataRef "D") (.aliasRef "A") :=
      ⟨.aliasRef filled, List.mem_cons_self .., List.mem_of_elem_eq_true rfl⟩
    have root : context.Reaches (.dataRef owner) (.dataRef "D") :=
      ⟨_, List.mem_of_elem_eq_true rfl, .refl⟩
    rintro (rfl | rfl)
    · exact root
    · exact root.uses uses

theorem uses_alias (next : Mention) : ¬context.Uses (.aliasRef "A") next := by
  rintro ⟨part, part_mem, mem⟩
  obtain rfl := List.mem_singleton.mp (show part ∈ [.prim .int] from part_mem)
  exact absurd mem List.not_mem_nil

theorem agrees {reference : Ty}
    (mem : reference ∈ [.dataRef owner, .aliasRef filled, .aliasRef declared]) :
    context.Agrees reference := by
  simp only [List.mem_cons, List.not_mem_nil, or_false] at mem
  obtain rfl | rfl | rfl := mem
  · rintro declared ⟨⟩
    rfl
  · rintro declared ⟨⟩
    exact ⟨rfl, (rfl : _ = _)⟩
  · rintro declared ⟨⟩
    exact ⟨rfl, (rfl : _ = _)⟩

theorem agrees_of_within {part : Ty} (within : context.Within (.dataRef owner) part) :
    part.AllReferences context.Agrees := by
  intro reference mem
  obtain rfl | ⟨mention, reaches, part_mem⟩ := within
  · obtain rfl := List.mem_singleton.mp (show reference ∈ [.dataRef owner] from mem)
    exact agrees (by simp)
  · obtain rfl | rfl := reaches_iff.mp reaches
    · obtain rfl | rfl := List.mem_pair.mp
        (show part ∈ [.aliasRef filled, .aliasRef declared] from part_mem)
      · obtain rfl := List.mem_singleton.mp (show reference ∈ [.aliasRef filled] from mem)
        exact agrees (by simp)
      · obtain rfl := List.mem_singleton.mp (show reference ∈ [.aliasRef declared] from mem)
        exact agrees (by simp)
    · obtain rfl := List.mem_singleton.mp (show part ∈ [.prim .int] from part_mem)
      exact absurd mem List.not_mem_nil

theorem describes : context.Describes heap (.dataRef owner) where
  store_eq := rfl
  holds := by simp [heap, Heap.of]
  agrees := agrees_of_within
  one_kind reaches other_reaches name_eq := by
    obtain rfl | rfl := reaches_iff.mp reaches <;> obtain rfl | rfl := reaches_iff.mp other_reaches
    all_goals simp_all [Mention.name]
  data reaches := by
    obtain data | alias_ := reaches_iff.mp reaches
    case inr => cases alias_
    cases data
    exact ⟨owner, rfl, rfl, by simp [heap, Heap.of], [], by simp, rfl, by simp⟩
  constructors reaches declared_eq mem := by
    obtain data | alias_ := reaches_iff.mp reaches
    case inr => cases alias_
    cases data
    cases declared_eq
    obtain rfl | rfl := List.mem_pair.mp mem <;> exact ⟨by simp [heap, Heap.of], rfl⟩
  alias_ reaches := by
    obtain data | alias_ := reaches_iff.mp reaches
    case inl => cases data
    cases alias_
    exact ⟨declared, .prim .int, rfl, rfl, by simp [heap, Heap.of], ⟨[], by simp, rfl, by simp⟩,
      rfl⟩
  acyclic reaches _ _ cycle := by
    obtain data | alias_ := reaches_iff.mp reaches
    case inl => cases data
    cases alias_
    obtain ⟨_, uses, -⟩ := Relation.TransGen.head'_iff.mp cycle
    exact uses_alias _ uses

end Reify.Merging

end Reification
