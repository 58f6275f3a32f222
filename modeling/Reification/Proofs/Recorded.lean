import Reification.Proofs.Described
import Reification.Proofs.Expansion

/-!
# Recorded declarations

Reifying a described type ends.  The alternatives which it records tell what the declarations tell,
so that the recorded names mean the same by their alternatives as by their declarations, and they
can be reconstructed.
-/

namespace Reification

/-- Adding constructors to known ones ends if all comparisons do.  Of those with the same content the
first one is kept, so that a relation which holds of different contents holds among all if it holds
among the known ones. -/
theorem Registry.foldlM_addUnknown {α : Type} {store : Store} {content : Constructor Ty → α}
    (related : Constructor Ty → Constructor Ty → Prop)
    (of_ne : ∀ one other, content one ≠ content other → related one other)
    {known others : List (Constructor Ty)}
    (decides : ∀ one ∈ known ++ others, ∀ other ∈ others,
      Decides (store.sameConstructor one other) (content one = content other)) :
    ∃ constructors, others.foldlM (addUnknown store) known = some constructors ∧
      known ⊆ constructors ∧ constructors ⊆ known ++ others ∧
      (∀ other ∈ others, ∃ one ∈ constructors, content one = content other) ∧
      (known.Pairwise related → constructors.Pairwise related) := by
  induction others generalizing known with
  | nil => exact ⟨known, rfl, List.Subset.refl _, by simp, by simp, id⟩
  | cons first others ih =>
    have widen {one : Constructor Ty} (mem : one ∈ known ++ others) :
        one ∈ known ++ first :: others :=
      List.mem_append.mpr ((List.mem_append.mp mem).imp_right (List.mem_cons_of_mem _))
    have first_decides : Decides (isKnown store known first)
        (∃ one ∈ known, content one = content first) :=
      isKnown_decides fun one mem =>
        decides one (List.mem_append_left _ mem) first (List.mem_cons_self ..)
    obtain ⟨answer, answer_eq, answer_iff⟩ := first_decides
    have added_eq : addUnknown store known first =
        some (if answer then known else known ++ [first]) := by
      rw [addUnknown, answer_eq]
      cases answer <;> rfl
    rw [List.foldlM_cons, added_eq]
    cases answer with
    | true =>
      obtain ⟨one, one_mem, one_eq⟩ := answer_iff.mp rfl
      obtain ⟨constructors, fold_eq, known_le, le, kept, pairwise⟩ := @ih known
        fun one mem other other_mem => decides one (widen mem) other
          (List.mem_cons_of_mem _ other_mem)
      exact ⟨constructors, fold_eq, known_le, fun constructor mem => widen (le mem),
        List.forall_mem_cons.mpr ⟨⟨one, known_le one_mem, one_eq⟩, kept⟩, pairwise⟩
    | false =>
      have fresh : ∀ one ∈ known, content one ≠ content first := by simpa using answer_iff
      obtain ⟨constructors, fold_eq, known_le, le, kept, pairwise⟩ := @ih (known ++ [first])
        fun one mem other other_mem => decides one (by simpa using mem) other
          (List.mem_cons_of_mem _ other_mem)
      refine ⟨constructors, fold_eq, fun one mem => known_le (List.mem_append_left _ mem),
        fun constructor mem => by simpa using le mem, List.forall_mem_cons.mpr
          ⟨⟨first, known_le (by simp), rfl⟩, kept⟩, fun known_related => pairwise ?_⟩
      exact List.pairwise_append.mpr ⟨known_related, by simp, fun one mem other other_mem => by
        rw [List.mem_singleton.mp other_mem]
        exact of_ne _ _ (fresh one mem)⟩

namespace Scope

variable {scope other : Scope}

theorem Denotes.dataRef_inv {reference : DataRef Ty} {name : String} {trees : List Tree}
    (denotes : scope.Denotes (.dataRef reference) (.dataRef name trees)) :
    reference.name = name ∧ scope.Known (.dataRef reference) ∧
      scope.DenoteAll reference.parameters trees := by
  generalize tree_eq : Tree.dataRef name trees = tree at denotes
  cases denotes with
  | dataRef known denote =>
    obtain ⟨rfl, rfl⟩ := Tree.dataRef.inj tree_eq
    exact ⟨rfl, known, denote⟩

/-- Fields which show the same fields have the same symbols. -/
theorem DenoteFields.symbols_eq {fields others : List (Field Ty)} {trees : List (Field Tree)}
    (denote : scope.DenoteFields fields trees) (denote' : other.DenoteFields others trees) :
    Ty.symbolsOfFields fields = Ty.symbolsOfFields others := by
  have one_eq := (Denotes.tuple denote).symbol_eq
  rw [← (Denotes.tuple denote').symbol_eq] at one_eq
  exact Symbol.tuple.inj one_eq

/-- Types which show the same trees have the same symbols. -/
theorem DenoteAll.symbols_eq {types others : List Ty} {trees : List Tree}
    (denote : scope.DenoteAll types trees) (denote' : other.DenoteAll others trees) :
    Ty.symbols types = Ty.symbols others := by
  induction types generalizing others trees with
  | nil =>
    cases denote
    cases denote'
    rfl
  | cons type types ih =>
    cases denote with
    | cons head tail =>
      cases denote' with
      | cons head' tail' =>
        rw [Ty.symbols, Ty.symbols, head.symbol_eq, head'.symbol_eq, ih tail tail']

end Scope

namespace Reify.Context

variable {context : Context} {heap : Heap} {type part : Ty} {name : String}

/-- Whether a value is the symbol of a type with the entries of all names which are reached from it,
besides what the grammar has for others. -/
structure Captures (context : Context) (type : Ty) (reified : Reified) : Prop where
  symbol_eq : reified.symbol = type.symbol
  get?_eq : ∀ {mention entry}, context.Reaches type mention →
    context.entryOf? mention = some entry →
    reified.definitions.get? mention.name = some entry.choice
  others : ∀ {name}, (∀ mention, context.Reaches type mention → mention.name ≠ name) →
    reified.definitions.get? name = context.grammar.get? name

/-- What a constructor shows of itself, apart from its data type. -/
noncomputable def content (context : Context) (heap : Heap) (constructor : Constructor Ty) :
    String × List (Field Tree) :=
  (constructor.name, Symbol.fieldTrees (context.meaning (context.declaredBody heap))
    (Ty.symbolsOfFields constructor.fields))

namespace Describes

theorem formals_denote (describes : context.Describes heap type)
    (reaches : context.Reaches type (.dataRef name)) {declared : DataRef Ty}
    (declared_eq : context.registry.lookupData? name = some declared) :
    (context.scope heap).DenoteAll declared.parameters (Ty.plainTrees declared.parameters) := by
  obtain ⟨_, other_eq, -, -, are_formals⟩ := describes.data reaches
  obtain rfl := Option.some.inj (declared_eq.symm.trans other_eq)
  exact describes.denote_formals are_formals fun formal mem =>
    .inr ⟨_, reaches, (mem_partsOf_data declared_eq).mpr (.inl mem)⟩

/-- The fields of a constructor show its content. -/
theorem fields_denote (describes : context.Describes heap type)
    (reaches : context.Reaches type (.dataRef name)) {constructor : Constructor Ty}
    (mem : constructor ∈ context.registry.declaredConstructors name) :
    (context.scope heap).DenoteFields constructor.fields (context.content heap constructor).2 := by
  obtain ⟨declared, declared_eq, -⟩ := describes.data reaches
  exact denoteFields_symbols fun field field_mem => describes.denotes (.inr ⟨_, reaches,
    (mem_partsOf_data declared_eq).mpr (.inr ⟨constructor, mem, field, field_mem, rfl⟩)⟩)

theorem constructor_denotes (describes : context.Describes heap type)
    (reaches : context.Reaches type (.dataRef name)) {declared : DataRef Ty}
    (declared_eq : context.registry.lookupData? name = some declared)
    {constructor : Constructor Ty}
    (mem : constructor ∈ context.registry.declaredConstructors name) :
    (context.scope heap).Denotes (.constructor constructor) (.constructor name
      (Ty.plainTrees declared.parameters) constructor.name
      (context.content heap constructor).2) := by
  obtain ⟨_, other_eq, name_eq, declared_known, -⟩ := describes.data reaches
  obtain rfl := Option.some.inj (declared_eq.symm.trans other_eq)
  obtain ⟨known, owner_same⟩ := describes.constructors reaches declared_eq mem
  have declared_denotes : (context.scope heap).Denotes (.dataRef declared) (.dataRef name
      (Ty.plainTrees declared.parameters)) := by
    rw [← name_eq]
    exact .dataRef declared_known (describes.formals_denote reaches declared_eq)
  have owner_denotes := declared_denotes.of_same scope_leavesClosed (.refl _)
    ((Heap.holds_dataRef _).mpr (Heap.known_owner known)) (describes.store_eq ▸ owner_same)
  obtain ⟨owner_name, -, owner_denote⟩ := owner_denotes.dataRef_inv
  rw [← owner_name]
  exact .constructor known owner_denote (describes.fields_denote reaches mem)

/-- The constructors of a data type are compared to the end.  Those which are kept have the contents
of all, and those with the same content have the same attributes if equal ones of the own layer
have. -/
theorem exists_constructors (describes : context.Describes heap type)
    (reaches : context.Reaches type (.dataRef name)) : ∃ constructors,
      context.registry.constructorsOf context.store name = some constructors ∧
      constructors ⊆ context.registry.declaredConstructors name ∧
      (∀ other ∈ context.registry.declaredConstructors name,
        ∃ one ∈ constructors, context.content heap one = context.content heap other) ∧
      ((∀ one ∈ context.registry.own.constructorsOf name,
          ∀ other ∈ context.registry.own.constructorsOf name,
          context.store.sameConstructor one other = some true →
            one.attributes = other.attributes) →
        ∀ one ∈ constructors, ∀ other ∈ constructors,
          context.content heap one = context.content heap other →
            one.attributes = other.attributes) := by
  obtain ⟨declared, declared_eq, -⟩ := describes.data reaches
  have decides {one other : Constructor Ty}
      (one_mem : one ∈ context.registry.declaredConstructors name)
      (other_mem : other ∈ context.registry.declaredConstructors name) :
      Decides (context.store.sameConstructor one other)
        (context.content heap one = context.content heap other) := by
    have compared := (describes.constructor_denotes reaches declared_eq one_mem).same_decides
      scope_leavesAgree (describes.constructor_denotes reaches declared_eq other_mem)
    rw [Store.sameConstructor, ← describes.store_eq]
    exact compared.congr (by simp [content])
  have all_eq : context.registry.declaredConstructors name =
      context.registry.own.constructorsOf name ++
        context.registry.inherited.flatMap (·.constructorsOf name) := by
    rw [Registry.declaredConstructors, Registry.layers, List.flatMap_cons]
  rw [all_eq] at decides ⊢
  let agree (one other : Constructor Ty) : Prop :=
    context.content heap one = context.content heap other → one.attributes = other.attributes
  have agree_symm : Std.Symm agree := ⟨fun _ _ agree content_eq => (agree content_eq.symm).symm⟩
  obtain ⟨constructors, fold_eq, own_le, le, kept, pairwise⟩ :=
    Registry.foldlM_addUnknown agree (fun one other differ equal => absurd equal differ)
      fun one mem other other_mem => decides mem (List.mem_append_right _ other_mem)
  refine ⟨constructors, fold_eq, le, fun other mem => ?_, fun own_agree one one_mem other other_mem =>
    (pairwise ?_).forall_of_forall (fun _ _ _ => rfl) one_mem other_mem⟩
  · rcases List.mem_append.mp mem with mem | mem
    · exact ⟨other, own_le mem, rfl⟩
    · exact kept other mem
  · refine List.pairwise_of_forall_mem_list fun one one_mem other other_mem equal => ?_
    exact own_agree one one_mem other other_mem ((decides (List.mem_append_left _ one_mem)
      (List.mem_append_left _ other_mem)).eq_true_iff.mpr equal)

/-- Every name which is reached has an entry. -/
theorem exists_entry (describes : context.Describes heap type) {mention : Mention}
    (reaches : context.Reaches type mention) : ∃ entry, context.entryOf? mention = some entry := by
  cases mention with
  | dataRef name =>
    obtain ⟨declared, declared_eq, -⟩ := describes.data reaches
    obtain ⟨constructors, constructors_eq, -⟩ := describes.exists_constructors reaches
    exact ⟨_, entryOf?_dataRef declared_eq constructors_eq⟩
  | aliasRef name =>
    obtain ⟨declared, body, declared_eq, -, -, -, body_eq⟩ := describes.alias_ reaches
    exact ⟨_, entryOf?_aliasRef declared_eq body_eq⟩
  | sort name => exact ⟨_, rfl⟩

/-- The entry of a name mentions what its declaration mentions. -/
theorem leads_iff (describes : context.Describes heap type) {mention next : Mention}
    (reaches : context.Reaches type mention) :
    context.Leads mention next ↔ context.Uses mention next := by
  obtain ⟨entry, entry_eq⟩ := describes.exists_entry reaches
  simp only [Leads, entry_eq, Option.some.injEq, exists_eq_left']
  cases mention with
  | dataRef name =>
    obtain ⟨declared, declared_eq, -⟩ := describes.data reaches
    obtain ⟨constructors, constructors_eq, le, kept, -⟩ := describes.exists_constructors reaches
    obtain rfl := Option.some.inj (entry_eq.symm.trans (entryOf?_dataRef declared_eq constructors_eq))
    rw [Symbol.mentionsOfAll_append, List.mem_append, Ty.mem_mentionsOfAll_symbols,
      Symbol.mentionsOfAll_eq, List.flatMap_assoc, List.mem_flatMap]
    simp only [← Symbol.mentionsOfAll_eq, Ty.mem_mentionsOfAll_symbolsOfFields, Uses,
      mem_partsOf_data declared_eq]
    constructor
    · rintro (⟨formal, mem, next_mem⟩ | ⟨constructor, mem, field, field_mem, next_mem⟩)
      · exact ⟨formal, .inl mem, next_mem⟩
      · exact ⟨field.type, .inr ⟨constructor, le mem, field, field_mem, rfl⟩, next_mem⟩
    · rintro ⟨part, mem | ⟨constructor, mem, field, field_mem, rfl⟩, next_mem⟩
      · exact .inl ⟨part, mem, next_mem⟩
      · -- The constructor may have been left out in favour of an equal one.
        obtain ⟨one, one_mem, content_eq⟩ := kept constructor mem
        refine .inr ⟨one, one_mem, Ty.mem_mentionsOfAll_symbolsOfFields.mp ?_⟩
        rw [(describes.fields_denote reaches (le one_mem)).symbols_eq
          (content_eq ▸ describes.fields_denote reaches mem)]
        exact Ty.mem_mentionsOfAll_symbolsOfFields.mpr ⟨field, field_mem, next_mem⟩
  | aliasRef name =>
    obtain ⟨declared, body, declared_eq, -, -, -, body_eq⟩ := describes.alias_ reaches
    obtain rfl := Option.some.inj (entry_eq.symm.trans (entryOf?_aliasRef declared_eq body_eq))
    rw [Symbol.mentionsOfAll_append, List.mem_append, Ty.mem_mentionsOfAll_symbols]
    simp only [Uses, mem_partsOf_alias declared_eq, body_eq, Option.some.injEq]
    constructor
    · rintro (⟨formal, mem, next_mem⟩ | next_mem)
      · exact ⟨formal, .inl mem, next_mem⟩
      · exact ⟨body, .inr rfl, by simpa [Symbol.mentionsOfAll] using next_mem⟩
    · rintro ⟨part, mem | rfl, next_mem⟩
      · exact .inl ⟨part, mem, next_mem⟩
      · exact .inr (by simpa [Symbol.mentionsOfAll] using next_mem)
  | sort name =>
    obtain rfl := Option.some.inj entry_eq
    simp [Uses, partsOf, Symbol.mentionsOfAll]

/-- Reifying a described type meets what is reached from it. -/
theorem meets_iff (describes : context.Describes heap type) {mention : Mention} :
    context.Meets type.symbol.mentions mention ↔ context.Reaches type mention := by
  constructor
  · rintro ⟨first, mem, path⟩
    induction path with
    | refl => exact ⟨first, mem, .refl⟩
    | tail _ leads ih => exact ih.uses ((describes.leads_iff ih).mp leads)
  · rintro ⟨first, mem, path⟩
    induction path with
    | refl => exact ⟨first, mem, .refl⟩
    | tail path uses ih =>
      exact ih.leads ((describes.leads_iff ⟨first, mem, path⟩).mpr uses)

/-- Reifying a described type ends with what is reached from it. -/
theorem reify_eq (describes : context.Describes heap type) :
    ∃ reified, type.reify context = .ok reified ∧ context.Captures type reified := by
  have one_kind : context.OneKind type.symbol.mentions :=
      fun mention other meets other_meets same _ _ =>
    describes.one_kind (describes.meets_iff.mp meets) (describes.meets_iff.mp other_meets) same
  have spec := reify_spec context type one_kind
  simp only [describes.meets_iff] at spec
  rcases reify_eq : type.reify context with failure | reified
  · rw [reify_eq] at spec
    obtain ⟨mention, meets, entry_eq⟩ := spec
    obtain ⟨entry, found⟩ := describes.exists_entry (describes.meets_iff.mp meets)
    simp [entry_eq] at found
  · rw [reify_eq] at spec
    exact ⟨reified, rfl, spec.1, fun reaches => spec.2.2.1 _ _ reaches,
      fun unmet => spec.2.2.2 _ unmet⟩

end Describes

section Resolves

open Reconstruct (Resolver Shapes subjectOf? formalsOf contentsOf IsAlias)

variable {resolve : Resolver} {bodies : String → Tree}

/-- Whether the alternatives of the names which are reached are those of their entries. -/
def Resolves (context : Context) (type : Ty) (resolve : Resolver) : Prop :=
  ∀ ⦃mention entry⦄, context.Reaches type mention → context.entryOf? mention = some entry →
    resolve mention.name = .ofList entry.alternatives

theorem Captures.resolves {reified : Reified} (captures : context.Captures type reified) :
    context.Resolves type reified.definitions.alternativesOf := by
  intro mention entry reaches entry_eq
  simp [Definitions.alternativesOf, captures.get?_eq reaches entry_eq, Entry.choice]

namespace Resolves

theorem mem_data (resolves : context.Resolves type resolve)
    (reaches : context.Reaches type (.dataRef name)) {declared : DataRef Ty}
    {constructors : List (Constructor Ty)}
    (declared_eq : context.registry.lookupData? name = some declared)
    (constructors_eq : context.registry.constructorsOf context.store name = some constructors)
    {production : Production} : production ∈ resolve name ↔ ∃ constructor ∈ constructors,
      constructor.production (.dataRef name (Ty.symbols declared.parameters)) = production := by
  have resolve_eq := resolves reaches (entryOf?_dataRef declared_eq constructors_eq)
  rw [show resolve name = _ from resolve_eq, OrderedSet.mem_ofList, List.mem_map]

theorem subjectOf?_data (resolves : context.Resolves type resolve)
    (reaches : context.Reaches type (.dataRef name)) {declared : DataRef Ty}
    {constructors : List (Constructor Ty)}
    (declared_eq : context.registry.lookupData? name = some declared)
    (constructors_eq : context.registry.constructorsOf context.store name = some constructors) :
    subjectOf? resolve name = if constructors.isEmpty then none
      else some (.dataRef name (Ty.symbols declared.parameters)) := by
  have mem_iff (production : Production) : production ∈ resolve name ↔
      ∃ constructor ∈ constructors,
        constructor.production (.dataRef name (Ty.symbols declared.parameters)) = production :=
    resolves.mem_data reaches declared_eq constructors_eq
  rcases first_eq : (resolve name).first? with _ | production
  · have none : constructors = [] := List.eq_nil_iff_forall_not_mem.mpr fun constructor mem =>
      OrderedSet.not_mem_of_first?_eq_none first_eq _ ((mem_iff _).mpr ⟨constructor, mem, rfl⟩)
    simp [subjectOf?, first_eq, none]
  · obtain ⟨constructor, mem, rfl⟩ := (mem_iff _).mp (List.mem_of_head? first_eq)
    have some_constructor : constructors.isEmpty = false := by
      cases constructors <;> simp at mem ⊢
    simp [subjectOf?, first_eq, some_constructor, Constructor.production, Symbol.withoutLabels]

theorem formalsOf_data (resolves : context.Resolves type resolve)
    (reaches : context.Reaches type (.dataRef name)) {declared : DataRef Ty}
    {constructors : List (Constructor Ty)}
    (declared_eq : context.registry.lookupData? name = some declared)
    (constructors_eq : context.registry.constructorsOf context.store name = some constructors) :
    formalsOf resolve name =
      if constructors.isEmpty then [] else Ty.symbols declared.parameters := by
  rw [formalsOf, resolves.subjectOf?_data reaches declared_eq constructors_eq]
  cases constructors.isEmpty <;> rfl

theorem mem_contentsOf_data (resolves : context.Resolves type resolve)
    (reaches : context.Reaches type (.dataRef name)) {declared : DataRef Ty}
    {constructors : List (Constructor Ty)}
    (declared_eq : context.registry.lookupData? name = some declared)
    (constructors_eq : context.registry.constructorsOf context.store name = some constructors)
    {symbol : Symbol} (mem : symbol ∈ contentsOf resolve name) :
    ∃ constructor ∈ constructors, symbol ∈ Ty.symbolsOfFields constructor.fields := by
  rw [contentsOf, resolves.subjectOf?_data reaches declared_eq constructors_eq] at mem
  split at mem
  · next alias_eq => split at alias_eq <;> cases alias_eq
  · obtain ⟨production, production_mem, symbol_mem⟩ := List.mem_flatMap.mp mem
    obtain ⟨constructor, constructor_mem, rfl⟩ :=
      (resolves.mem_data reaches declared_eq constructors_eq).mp (List.mem_filter.mp production_mem).1
    exact ⟨constructor, constructor_mem, symbol_mem⟩
  · cases mem

theorem first?_alias (resolves : context.Resolves type resolve)
    (reaches : context.Reaches type (.aliasRef name)) {declared : AliasRef Ty} {body : Ty}
    (declared_eq : context.registry.lookupAlias? name = some declared)
    (body_eq : context.store.body? declared = some body) : (resolve name).first? =
      some (.ofAlias (.aliasRef name (Ty.symbols declared.parameters)) body.symbol) := by
  have resolve_eq := resolves reaches (entryOf?_aliasRef declared_eq body_eq)
  rw [show resolve name = _ from resolve_eq]
  rfl

theorem formalsOf_alias (resolves : context.Resolves type resolve)
    (reaches : context.Reaches type (.aliasRef name)) {declared : AliasRef Ty} {body : Ty}
    (declared_eq : context.registry.lookupAlias? name = some declared)
    (body_eq : context.store.body? declared = some body) :
    formalsOf resolve name = Ty.symbols declared.parameters :=
  Reconstruct.formalsOf_eq_of_alias (resolves.first?_alias reaches declared_eq body_eq) rfl

theorem bodySymbol?_alias (resolves : context.Resolves type resolve)
    (reaches : context.Reaches type (.aliasRef name)) {declared : AliasRef Ty} {body : Ty}
    (declared_eq : context.registry.lookupAlias? name = some declared)
    (body_eq : context.store.body? declared = some body) :
    Reconstruct.bodySymbol? (resolve name) = some body.symbol := by
  rw [Reconstruct.bodySymbol?, resolves.first?_alias reaches declared_eq body_eq]
  rfl

theorem isAlias (resolves : context.Resolves type resolve)
    (reaches : context.Reaches type (.aliasRef name)) {declared : AliasRef Ty} {body : Ty}
    (declared_eq : context.registry.lookupAlias? name = some declared)
    (body_eq : context.store.body? declared = some body) : IsAlias resolve name :=
  ⟨name, Ty.symbols declared.parameters, by
    simp [subjectOf?, resolves.first?_alias reaches declared_eq body_eq, Production.ofAlias,
      Symbol.withoutLabels]⟩

theorem not_isAlias (resolves : context.Resolves type resolve)
    (describes : context.Describes heap type) (reaches : context.Reaches type (.dataRef name)) :
    ¬IsAlias resolve name := by
  rintro ⟨other, parameters, alias_eq⟩
  obtain ⟨declared, declared_eq, -⟩ := describes.data reaches
  obtain ⟨constructors, constructors_eq, -⟩ := describes.exists_constructors reaches
  rw [resolves.subjectOf?_data reaches declared_eq constructors_eq] at alias_eq
  split at alias_eq <;> cases alias_eq

/-- The symbols in the alternatives of a data type are those of the types in its declaration. -/
theorem exists_part_data (resolves : context.Resolves type resolve)
    (reaches : context.Reaches type (.dataRef name)) {declared : DataRef Ty}
    {constructors : List (Constructor Ty)}
    (declared_eq : context.registry.lookupData? name = some declared)
    (constructors_eq : context.registry.constructorsOf context.store name = some constructors)
    (le : constructors ⊆ context.registry.declaredConstructors name) {symbol : Symbol}
    (mem : symbol ∈ formalsOf resolve name ++ contentsOf resolve name) :
    ∃ label, ∃ part ∈ context.partsOf (.dataRef name),
      symbol = Field.symbol ⟨label, part.symbol⟩ := by
  rcases List.mem_append.mp mem with mem | mem
  · rw [resolves.formalsOf_data reaches declared_eq constructors_eq] at mem
    split at mem
    · cases mem
    · rw [Ty.symbols_eq] at mem
      obtain ⟨formal, formal_mem, rfl⟩ := List.mem_map.mp mem
      exact ⟨none, formal, (mem_partsOf_data declared_eq).mpr (.inl formal_mem), rfl⟩
  · obtain ⟨constructor, constructor_mem, mem⟩ :=
      resolves.mem_contentsOf_data reaches declared_eq constructors_eq mem
    rw [Ty.symbolsOfFields_eq] at mem
    obtain ⟨field, field_mem, rfl⟩ := List.mem_map.mp mem
    exact ⟨field.label, field.type, (mem_partsOf_data declared_eq).mpr
      (.inr ⟨constructor, le constructor_mem, field, field_mem, rfl⟩), rfl⟩

/-- The symbols in the alternative of an alias are those of the types in its declaration. -/
theorem exists_part_alias (resolves : context.Resolves type resolve)
    (reaches : context.Reaches type (.aliasRef name)) {declared : AliasRef Ty} {body : Ty}
    (declared_eq : context.registry.lookupAlias? name = some declared)
    (body_eq : context.store.body? declared = some body) {symbol : Symbol}
    (mem : symbol ∈ formalsOf resolve name ++ contentsOf resolve name) :
    ∃ label, ∃ part ∈ context.partsOf (.aliasRef name),
      symbol = Field.symbol ⟨label, part.symbol⟩ := by
  rw [resolves.formalsOf_alias reaches declared_eq body_eq, Reconstruct.contentsOf_eq_of_alias
    (resolves.first?_alias reaches declared_eq body_eq) rfl,
    resolves.bodySymbol?_alias reaches declared_eq body_eq, Ty.symbols_eq] at mem
  rcases List.mem_append.mp mem with mem | mem
  · obtain ⟨formal, formal_mem, rfl⟩ := List.mem_map.mp mem
    exact ⟨none, formal, (mem_partsOf_alias declared_eq).mpr (.inl formal_mem), rfl⟩
  · obtain rfl : symbol = body.symbol := by simpa using mem
    exact ⟨none, body, (mem_partsOf_alias declared_eq).mpr (.inr body_eq), rfl⟩

/-- The symbols in the alternatives of a name are those of the types in its declaration. -/
theorem exists_part (resolves : context.Resolves type resolve)
    (describes : context.Describes heap type) {mention : Mention}
    (reaches : context.Reaches type mention) (declared : mention.declared? = some name)
    {symbol : Symbol} (mem : symbol ∈ formalsOf resolve name ++ contentsOf resolve name) :
    ∃ label, ∃ part ∈ context.partsOf mention, symbol = Field.symbol ⟨label, part.symbol⟩ := by
  cases mention with
  | dataRef other =>
    obtain rfl := Option.some.inj declared
    obtain ⟨declared, declared_eq, -⟩ := describes.data reaches
    obtain ⟨constructors, constructors_eq, le, -⟩ := describes.exists_constructors reaches
    exact resolves.exists_part_data reaches declared_eq constructors_eq le mem
  | aliasRef other =>
    obtain rfl := Option.some.inj declared
    obtain ⟨declared, body, declared_eq, -, -, -, body_eq⟩ := describes.alias_ reaches
    exact resolves.exists_part_alias reaches declared_eq body_eq mem
  | sort other => cases declared

/-- What the alternatives of a name lead to is mentioned in its declaration. -/
theorem uses_of_leads (resolves : context.Resolves type resolve)
    (describes : context.Describes heap type) {mention : Mention}
    (reaches : context.Reaches type mention) (declared : mention.declared? = some name)
    {other : String} (leads : Reconstruct.Leads resolve name other) :
    ∃ next, context.Uses mention next ∧ next.declared? = some other := by
  obtain ⟨symbol, mem, names⟩ := leads
  obtain ⟨label, part, part_mem, rfl⟩ := resolves.exists_part describes reaches declared mem
  obtain ⟨next, next_mem, next_eq⟩ := Field.names_symbol.mp names
  exact ⟨next, ⟨part, part_mem, next_mem⟩, next_eq⟩

/-- What the declaration of a name mentions is mentioned in its alternatives, apart from nonterminals
in the bounds of a data type without constructors. -/
theorem mem_mentionsOf (resolves : context.Resolves type resolve)
    (describes : context.Describes heap type) {mention next : Mention}
    (reaches : context.Reaches type mention) (declared : mention.declared? = some name)
    (uses : context.Uses mention next)
    (known : next.declared? ≠ none ∨ (resolve name).first? ≠ none) :
    (resolve name).first? ≠ none ∧ next ∈ Reconstruct.mentionsOf resolve name := by
  obtain ⟨entry, entry_eq, mem⟩ := (describes.leads_iff reaches).mpr uses
  cases mention with
  | dataRef other =>
    obtain rfl := Option.some.inj declared
    obtain ⟨declared, declared_eq, -, -, are_formals⟩ := describes.data reaches
    obtain ⟨constructors, constructors_eq, -⟩ := describes.exists_constructors reaches
    obtain rfl := Option.some.inj
      (entry_eq.symm.trans (entryOf?_dataRef declared_eq constructors_eq))
    rw [Symbol.mentionsOfAll_append, List.mem_append] at mem
    have some_constructor : constructors ≠ [] := by
      rintro rfl
      rcases known with known | known
      · simp only [List.flatMap_nil, Symbol.mentionsOfAll, List.not_mem_nil, or_false,
          Ty.mem_mentionsOfAll_symbols] at mem
        obtain ⟨formal, formal_mem, mem⟩ := mem
        obtain ⟨name, name_eq⟩ := Option.ne_none_iff_exists'.mp known
        exact are_formals.not_names formal_mem name ⟨next, mem, name_eq⟩
      · have subject_eq := resolves.subjectOf?_data reaches declared_eq constructors_eq
        exact known (by simpa [subjectOf?] using subject_eq)
    have subject_eq := resolves.subjectOf?_data reaches declared_eq constructors_eq
    have formals_eq := resolves.formalsOf_data reaches declared_eq constructors_eq
    rw [if_neg (by simpa using some_constructor)] at subject_eq formals_eq
    refine ⟨fun none => by simp [subjectOf?, none] at subject_eq, ?_⟩
    rw [Reconstruct.mentionsOf, Symbol.mentionsOfAll_append, formals_eq, List.mem_append]
    refine mem.imp_right fun mem => ?_
    rw [Symbol.mentionsOfAll_eq, List.mem_flatMap] at mem ⊢
    obtain ⟨symbol, symbol_mem, mem⟩ := mem
    obtain ⟨constructor, constructor_mem, symbol_mem⟩ := List.mem_flatMap.mp symbol_mem
    refine ⟨symbol, ?_, mem⟩
    rw [contentsOf, subject_eq]
    refine List.mem_flatMap.mpr ⟨_, List.mem_filter.mpr
      ⟨(resolves.mem_data reaches declared_eq constructors_eq).mpr
        ⟨constructor, constructor_mem, rfl⟩, rfl⟩, symbol_mem⟩
  | aliasRef other =>
    obtain rfl := Option.some.inj declared
    obtain ⟨declared, body, declared_eq, -, -, -, body_eq⟩ := describes.alias_ reaches
    obtain rfl := Option.some.inj (entry_eq.symm.trans (entryOf?_aliasRef declared_eq body_eq))
    refine ⟨by simp [resolves.first?_alias reaches declared_eq body_eq], ?_⟩
    rw [Reconstruct.mentionsOf, resolves.formalsOf_alias reaches declared_eq body_eq,
      Reconstruct.contentsOf_eq_of_alias (resolves.first?_alias reaches declared_eq body_eq) rfl,
      resolves.bodySymbol?_alias reaches declared_eq body_eq]
    exact mem
  | sort other => cases declared

/-- What the alternatives of a name lead to is reached from its declaration. -/
theorem path_of_leads (resolves : context.Resolves type resolve)
    (describes : context.Describes heap type) {mention : Mention}
    (reaches : context.Reaches type mention) (declared : mention.declared? = some name)
    {other : String} (path : Relation.ReflTransGen (Reconstruct.Leads resolve) name other) :
    ∃ last, Relation.ReflTransGen context.Uses mention last ∧ context.Reaches type last ∧
      last.declared? = some other := by
  induction path with
  | refl => exact ⟨mention, .refl, reaches, declared⟩
  | tail _ leads ih =>
    obtain ⟨last, path, last_reaches, last_eq⟩ := ih
    obtain ⟨next, uses, next_eq⟩ := resolves.uses_of_leads describes last_reaches last_eq leads
    exact ⟨next, path.tail uses, last_reaches.uses uses, next_eq⟩

/-- What reconstructing the symbol of a type reaches is reached from the type. -/
theorem reaches_of_reaches (resolves : context.Resolves type resolve)
    (describes : context.Describes heap type)
    (reaches : Reconstruct.Reaches resolve type.symbol name) :
    ∃ mention, context.Reaches type mention ∧ mention.declared? = some name := by
  obtain ⟨first, ⟨mention, mem, mention_eq⟩, path⟩ := reaches
  obtain ⟨last, -, last_reaches, last_eq⟩ :=
    resolves.path_of_leads describes ⟨mention, mem, .refl⟩ mention_eq path
  exact ⟨last, last_reaches, last_eq⟩

/-- A name means the same by its alternatives as by its declaration. -/
theorem meaning_eq (resolves : context.Resolves type resolve)
    (describes : context.Describes heap type) {mention : Mention}
    (reaches : context.Reaches type mention) (declared : mention.declared? = some name)
    (bodies : String → Tree) :
    Reconstruct.meaning resolve (.plain resolve bodies) name = context.meaning bodies name := by
  cases mention with
  | dataRef other =>
    obtain rfl := Option.some.inj declared
    obtain ⟨declared, declared_eq, -⟩ := describes.data reaches
    obtain ⟨constructors, constructors_eq, le, kept, -⟩ := describes.exists_constructors reaches
    have empty_iff : constructors.isEmpty =
        (context.registry.declaredConstructors other).isEmpty := by
      rw [Bool.eq_iff_iff, List.isEmpty_iff, List.isEmpty_iff]
      refine ⟨fun none => List.eq_nil_iff_forall_not_mem.mpr fun constructor mem => ?_,
        fun none => List.eq_nil_iff_forall_not_mem.mpr fun constructor mem => ?_⟩
      · obtain ⟨one, one_mem, -⟩ := kept constructor mem
        simp [none] at one_mem
      · have all_mem := le mem
        simp [none] at all_mem
    rw [meaning_of_data declared_eq, Reconstruct.meaning,
      resolves.subjectOf?_data reaches declared_eq constructors_eq, Shapes.formals_plain,
      resolves.formalsOf_data reaches declared_eq constructors_eq, ← empty_iff]
    cases constructors.isEmpty <;> simp [Ty.plainTrees, Function.comp_def]
  | aliasRef other =>
    obtain rfl := Option.some.inj declared
    obtain ⟨declared, body, declared_eq, -, -, -, body_eq⟩ := describes.alias_ reaches
    rw [Reconstruct.meaning_of_alias (resolves.isAlias reaches declared_eq body_eq),
      meaning_of_alias declared_eq, Shapes.formals_plain,
      resolves.formalsOf_alias reaches declared_eq body_eq]
    cases declared.parameters <;> simp [Ty.plainTrees, Function.comp_def]
  | sort other => cases declared

/-- The symbol of a type which is reached means the same by the alternatives of its names as by their
declarations. -/
theorem tree_eq (resolves : context.Resolves type resolve)
    (describes : context.Describes heap type) (within : context.Within type part)
    (bodies : String → Tree) :
    part.symbol.tree (Reconstruct.meaning resolve (.plain resolve bodies)) =
      part.symbol.tree (context.meaning bodies) :=
  Symbol.tree_congr fun _ ⟨_, mem, declared⟩ =>
    resolves.meaning_eq describes (within.reaches mem) declared bodies

/-- The fields of a constructor mean its content. -/
theorem fieldTrees_eq (resolves : context.Resolves type resolve)
    (describes : context.Describes heap type) (reaches : context.Reaches type (.dataRef name))
    {constructor : Constructor Ty}
    (mem : constructor ∈ context.registry.declaredConstructors name) :
    Symbol.fieldTrees (Reconstruct.meaning resolve (.plain resolve (context.declaredBody heap)))
      (Ty.symbolsOfFields constructor.fields) = (context.content heap constructor).2 := by
  obtain ⟨declared, declared_eq, -⟩ := describes.data reaches
  rw [content, Ty.fieldTrees_symbolsOfFields, Ty.fieldTrees_symbolsOfFields]
  refine List.map_congr_left fun field field_mem => congrArg (Field.mk field.label) ?_
  exact resolves.tree_eq describes (.inr ⟨_, reaches, (mem_partsOf_data declared_eq).mpr
    (.inr ⟨constructor, mem, field, field_mem, rfl⟩)⟩) _

/-- Constructors belong to data types with as many parameters as their names are declared with. -/
theorem stable (resolves : context.Resolves type resolve)
    (describes : context.Describes heap type) (within : context.Within type part)
    {owner : Symbol} (mem : owner ∈ part.symbol.owners) :
    Reconstruct.Stable resolve (.plain resolve (context.declaredBody heap)) owner := by
  obtain ⟨reference, reference_mem, rfl⟩ := Ty.exists_owner mem
  have suits := describes.suits within _ reference_mem
  obtain ⟨declared, declared_eq, are_formals, length_eq⟩ := id suits
  have owner_eq : (Ty.dataRef reference).symbol.tree
      (Reconstruct.meaning resolve (.plain resolve (context.declaredBody heap))) = _ :=
    (Symbol.tree_congr fun name ⟨mention, mention_mem, declared⟩ => resolves.meaning_eq describes
      (within.reaches (Symbol.mem_mentions_of_mem_owners mem mention_mem)) declared _).trans
      (tree_dataRef suits)
  intro formals
  rw [owner_eq]
  intro meaning_eq
  have reaches := within.reaches (part.allReferences_mentions _ reference_mem _ rfl)
  rw [Tree.ownerName, Tree.name?, Option.getD_some,
    resolves.meaning_eq describes reaches rfl, meaning_of_data declared_eq] at meaning_eq
  split at meaning_eq
  · cases meaning_eq
  · obtain ⟨-, rfl⟩ := Tree.dataRef.inj (Option.some.inj meaning_eq)
    exact are_formals.plainTrees.map_subst
      (by simpa [Ty.plainTrees, Tree.parameters] using length_eq.symm)

/-- The formal parameters of a name which is reached mention no names. -/
theorem plain (resolves : context.Resolves type resolve) (describes : context.Describes heap type)
    {mention : Mention} (reaches : context.Reaches type mention)
    (declared : mention.declared? = some name) :
    ∀ formal ∈ formalsOf resolve name, ∀ other, ¬formal.Names other := by
  intro formal mem other
  cases mention with
  | dataRef other =>
    obtain rfl := Option.some.inj declared
    obtain ⟨declared, declared_eq, -, -, are_formals⟩ := describes.data reaches
    obtain ⟨constructors, constructors_eq, -⟩ := describes.exists_constructors reaches
    rw [resolves.formalsOf_data reaches declared_eq constructors_eq] at mem
    split at mem
    · cases mem
    · rw [Ty.symbols_eq] at mem
      obtain ⟨type, type_mem, rfl⟩ := List.mem_map.mp mem
      exact are_formals.not_names type_mem _
  | aliasRef other =>
    obtain rfl := Option.some.inj declared
    obtain ⟨declared, body, declared_eq, -, -, are_formals, body_eq⟩ := describes.alias_ reaches
    rw [resolves.formalsOf_alias reaches declared_eq body_eq, Ty.symbols_eq] at mem
    obtain ⟨type, type_mem, rfl⟩ := List.mem_map.mp mem
    exact are_formals.not_names type_mem _
  | sort other => cases declared

/-- The declarations of the names which are reached show what their alternatives state. -/
theorem solves (resolves : context.Resolves type resolve) (describes : context.Describes heap type)
    {mention : Mention} (reaches : context.Reaches type mention)
    (declared : mention.declared? = some name) :
    Reconstruct.Solves resolve (.plain resolve (context.declaredBody heap)) name where
  formals_eq _ :=
    Reconstruct.plain_formals_eq (resolves.plain describes reaches declared) _ _
  body_eq is_alias := by
    cases mention with
    | dataRef other =>
      obtain rfl := Option.some.inj declared
      exact absurd is_alias (resolves.not_isAlias describes reaches)
    | aliasRef other =>
      obtain rfl := Option.some.inj declared
      obtain ⟨declared, body, declared_eq, -, -, -, body_eq⟩ := describes.alias_ reaches
      rw [Reconstruct.bodyTree, resolves.bodySymbol?_alias reaches declared_eq body_eq]
      refine (describes.declaredBody_eq reaches declared_eq body_eq).trans
        (resolves.tree_eq describes (.inr ⟨_, reaches, ?_⟩) _).symm
      exact (mem_partsOf_alias declared_eq).mpr (.inr body_eq)
    | sort other => cases declared

/-- The names which are reached can be reconstructed from their alternatives. -/
theorem regular (resolves : context.Resolves type resolve)
    (describes : context.Describes heap type) {mention : Mention}
    (reaches : context.Reaches type mention) (declared : mention.declared? = some name) :
    Reconstruct.Regular resolve (.plain resolve (context.declaredBody heap)) name where
  direct := Reconstruct.not_reachesItself_of_plain (resolves.plain describes reaches declared)
  stable symbol mem owner owner_mem := by
    obtain ⟨label, part, part_mem, rfl⟩ := resolves.exists_part describes reaches declared mem
    rw [Field.owners_symbol] at owner_mem
    exact resolves.stable describes (.inr ⟨mention, reaches, part_mem⟩) owner_mem
  solves := resolves.solves describes reaches declared
  acyclic is_alias some_formal symbol mem := by
    cases mention with
    | dataRef other =>
      obtain rfl := Option.some.inj declared
      exact absurd is_alias (resolves.not_isAlias describes reaches)
    | aliasRef other =>
      obtain rfl := Option.some.inj declared
      obtain ⟨declared, body, declared_eq, -, -, -, body_eq⟩ := describes.alias_ reaches
      have some_parameter : declared.parameters ≠ [] := fun none => some_formal <| by
        rw [resolves.formalsOf_alias reaches declared_eq body_eq, none]
        rfl
      rintro ⟨first, names, path⟩
      obtain ⟨next, uses, next_eq⟩ := resolves.uses_of_leads describes reaches rfl
        ⟨symbol, List.mem_append_right _ mem, names⟩
      obtain ⟨last, last_path, last_reaches, last_eq⟩ :=
        resolves.path_of_leads describes (reaches.uses uses) next_eq path
      -- The name which is met again is met as the alias which it is.
      obtain rfl : last = .aliasRef other := describes.one_kind last_reaches reaches <| by
        cases last <;> simp_all [Mention.declared?, Mention.name]
      exact describes.acyclic reaches declared_eq some_parameter (.head' uses last_path)
    | sort other => cases declared

end Resolves

end Resolves

end Reify.Context

end Reification
