import Reification.Proofs.Tidying

/-!
# Tidy declarations

Declaring a name leaves a tidy world.  A data type is declared before its constructors, and all of
these belong to the declared object.  An alias is pending from its declaration on until its body is
known; then the declared object has a body, and so have all references to it.
-/

namespace Reification.Reconstruct.Setting

variable {setting : Setting} {world : World} {name : String}

section Pending

/-- The setting in which the body of a further alias is being reconstructed. -/
def within (setting : Setting) (name : String) : Setting :=
  { setting with pending := fun other => setting.pending other ∨ other = name }

variable {node type : Ty} {other : String}

theorem Accepts.within (accepts : setting.Accepts world node) :
    (setting.within name).Accepts world node :=
  ⟨accepts.1, fun reference node_eq => (accepts.2 reference node_eq).imp_right
    (.imp_left (.imp_right (.imp_left Or.inl)))⟩

theorem Registered.within (registered : setting.Registered world other type) :
    (setting.within name).Registered world other type where
  resolved := registered.resolved
  length_eq := registered.length_eq
  parameters part mem := (registered.parameters part mem).imp fun _ => Accepts.within
  kind := registered.kind.imp_right fun ⟨reference, type_eq, name_eq, is_alias, known⟩ =>
    ⟨reference, type_eq, name_eq, is_alias, known.imp_right .inl⟩

theorem Tidy.within (tidy : setting.Tidy world) : (setting.within name).Tidy world where
  inherited_eq := tidy.inherited_eq
  declared _ _ declared := (tidy.declared declared).within
  constructors _ _ mem :=
    have ⟨owner_eq, canonical, all⟩ := tidy.constructors mem
    ⟨owner_eq, canonical, all.imp fun _ => Accepts.within⟩
  bodies _ _ body_eq := (tidy.bodies body_eq).imp fun _ => Accepts.within

section Filled

variable (filled : ∀ reference, world.registry.lookup? name = some (.aliasRef reference) →
  world.store.body? reference ≠ none)

include filled

/-- Once the declared object of a name has a body, nothing is pending because of it. -/
theorem Accepts.of_within (accepts : (setting.within name).Accepts world node) :
    setting.Accepts world node := by
  refine ⟨accepts.1, fun reference node_eq => ?_⟩
  obtain known | ⟨lookup_eq, pending | name_eq, encloses⟩ | copied := accepts.2 reference node_eq
  · exact .inl known
  · exact .inr (.inl ⟨lookup_eq, pending, encloses⟩)
  · exact .inl (filled reference (name_eq ▸ lookup_eq))
  · exact .inr (.inr copied)

theorem Registered.of_within (registered : (setting.within name).Registered world other type)
    (lookup_eq : world.registry.lookup? other = some type) :
    setting.Registered world other type where
  resolved := registered.resolved
  length_eq := registered.length_eq
  parameters part mem := (registered.parameters part mem).imp fun _ => Accepts.of_within filled
  kind := registered.kind.imp_right fun ⟨reference, type_eq, name_eq, is_alias, known⟩ =>
    ⟨reference, type_eq, name_eq, is_alias, known.elim .inl fun pending => pending.elim .inr
      fun same => .inl (filled reference (same ▸ type_eq ▸ lookup_eq))⟩

theorem Tidy.of_within (tidy : (setting.within name).Tidy world) : setting.Tidy world where
  inherited_eq := tidy.inherited_eq
  declared _ _ declared := (tidy.declared declared).of_within filled declared
  constructors _ _ mem :=
    have ⟨owner_eq, canonical, all⟩ := tidy.constructors mem
    ⟨owner_eq, canonical, all.imp fun _ => Accepts.of_within filled⟩
  bodies _ _ body_eq := (tidy.bodies body_eq).imp fun _ => Accepts.of_within filled

end Filled

/-- What is done while an alias is pending may be looked at when it has got its body. -/
theorem Tidies.of_within {α : Type} {building : Building α} {post post' : α → World → Prop}
    (tidies : (setting.within name).Tidies building world post)
    (le : ∀ result after, world.Retains after → (setting.within name).Tidy after →
      post result after → setting.Tidy after ∧ post' result after) :
    setting.Tidies building world post' :=
  Building.Meets.mono tidies (fun _ _ ⟨retains, tidy, holds⟩ =>
    ⟨retains, le _ _ retains tidy holds⟩) fun _ _ => id

end Pending

section Data

variable {fieldsOf : List Symbol → Building (List (Field Ty))}

/-- A constructor is added to those of its data type, which is the declared one. -/
theorem declareConstructor_tidies {constructor : Constructor Ty} (tidy : setting.Tidy world)
    (declares : world.registry.lookup? constructor.owner.name ≠ none)
    (registered : setting.Registered world constructor.owner.name (.dataRef constructor.owner))
    (canonical : setting.Canonical world.registry constructor.owner.name
      (.dataRef constructor.owner))
    (fields_all : ∀ field ∈ constructor.fields, field.type.All (setting.Accepts world)) :
    setting.Tidies (Building.register (·.declareConstructor · constructor)) world
      fun _ _ => True := by
  refine Building.meets_register.mpr ?_
  obtain ⟨existing, lookup_eq⟩ := Option.ne_none_iff_exists'.mp declares
  have all : (Ty.constructor constructor).All (setting.Accepts world) := by
    refine all_of_children (.inl canonical) (by simp) fun part mem => ?_
    rcases List.mem_append.mp mem with mem | mem
    · exact registered.parameters part mem
    · obtain ⟨field, field_mem, rfl⟩ := List.mem_map.mp mem
      exact fields_all field field_mem
  have same_ends (terminating : Terminating setting.resolve) :
      world.store.same existing (.dataRef constructor.owner) ≠ none := by
    have existing_registered := tidy.declared lookup_eq
    by_cases no_formal : formalsOf setting.resolve constructor.owner.name = []
    · have length_eq := existing_registered.length_eq
      rw [no_formal] at length_eq
      obtain none | ⟨declared, declared_eq, same⟩ := canonical
      · exact absurd none registered.resolved
      · obtain rfl := Option.some.inj (lookup_eq.symm.trans declared_eq)
        rw [same (List.length_eq_zero_iff.mp length_eq), Store.same_self]
        exact nofun
    · exact existing_registered.same_ne_none tidy terminating registered no_formal
  have known_ends (terminating : Terminating setting.resolve) :
      Registry.isKnown world.store (world.registry.own.constructorsOf constructor.owner.name)
        constructor ≠ none := by
    refine Registry.isKnown_ne_none fun other mem => ?_
    exact sameWith_ne_none tidy terminating (tidy.constructors mem).2.2 all
  rw [Registry.declareConstructor_eq, Registry.declare_of_declared lookup_eq]
  rcases same_eq : world.store.same existing (.dataRef constructor.owner) with _ | _ | _
  · exact ⟨.refl world, fun terminating => absurd same_eq (same_ends terminating)⟩
  · exact ⟨.refl world, fun _ => nofun⟩
  · simp only [Registry.constructorsOf_of_inherited_eq tidy.inherited_eq]
    rcases known_eq : Registry.isKnown world.store
      (world.registry.own.constructorsOf constructor.owner.name) constructor with _ | _ | _
    · exact ⟨.refl world, fun terminating => absurd known_eq (known_ends terminating)⟩
    · have retains : world.Retains { world with registry := { world.registry with
          own := { world.registry.own with
            constructors := world.registry.own.constructors.insert constructor.owner.name
              (world.registry.own.constructorsOf constructor.owner.name ++ [constructor]) } } } :=
        .of_registry rfl rfl
      refine ⟨retains, tidy.of_retains retains rfl (fun _ _ => .inl) (fun name added mem => ?_)
        fun _ _ => .inl, trivial⟩
      rcases Layer.mem_constructorsOf_append.mp mem with old | ⟨rfl, rfl⟩
      · exact .inl old
      · exact .inr ⟨rfl, canonical, all⟩
    · exact ⟨.refl world, tidy, trivial⟩

/-- The constructors of a declared data type leave a tidy world. -/
theorem declareConstructors_tidies {owner : DataRef Ty} {productions : List Production}
    (tidy : setting.Tidy world) (declares : world.registry.lookup? owner.name ≠ none)
    (registered : setting.Registered world owner.name (.dataRef owner))
    (canonical : setting.Canonical world.registry owner.name (.dataRef owner))
    (fields : ∀ production ∈ productions, production.name.isSome = true →
      ∀ ⦃start⦄, world.Retains start → setting.Tidy start →
        setting.Tidies (fieldsOf production.symbols) start fun results after =>
          ∀ field ∈ results, field.type.All (setting.Accepts after)) :
    setting.Tidies (declareConstructors fieldsOf owner productions) world fun _ _ => True := by
  induction productions generalizing world with
  | nil => exact tidies_pure tidy trivial
  | cons production productions ih =>
    obtain ⟨head_fields, tail_fields⟩ := List.forall_mem_cons.mp fields
    have rest {after : World} (retains : world.Retains after) (tidy : setting.Tidy after) :
        setting.Tidies (declareConstructors fieldsOf owner productions) after fun _ _ => True :=
      ih tidy (retains.declared declares) (registered.mono retains) (canonical.mono retains)
        fun production mem named _ later => tail_fields production mem named (retains.trans later)
    simp only [declareConstructors]
    rcases name_eq : production.name with _ | name
    · exact rest (.refl world) tidy
    · refine (head_fields (by simp [name_eq]) (.refl world) tidy).bind
        fun results first retains tidy results_all => ?_
      refine (tidies_make (makes_newConstructor tidy owner name results production.attributes)).bind
        fun constructor second later tidy made => ?_
      obtain ⟨owner_eq, -, fields_eq, -⟩ := made
      have grown := retains.trans later
      subst owner_eq
      refine (declareConstructor_tidies tidy (grown.declared declares) (registered.mono grown)
        (canonical.mono grown) fun field mem => ?_).bind
          fun _ _ last tidy _ => rest (grown.trans last) tidy
      exact all_mono (results_all field (fields_eq ▸ mem)) later

/-- A data type is declared before its constructors. -/
theorem declareData_tidies {formals : List Ty} (tidy : setting.Tidy world)
    (resolved : (setting.resolve name).first? ≠ none) (no_alias : ¬IsAlias setting.resolve name)
    (length_eq : formals.length = (formalsOf setting.resolve name).length)
    (formals_all : ∀ formal ∈ formals, formal.All (setting.Accepts world))
    (undeclared : world.registry.lookup? name = none ∨ formalsOf setting.resolve name ≠ [])
    (fields : ∀ production ∈ (setting.resolve name).toList, production.name.isSome = true →
      ∀ ⦃start⦄, world.Retains start → start.registry.lookup? name ≠ none → setting.Tidy start →
        setting.Tidies (fieldsOf production.symbols) start fun results after =>
          ∀ field ∈ results, field.type.All (setting.Accepts after)) :
    setting.Tidies (declareData fieldsOf name formals (setting.resolve name)) world
      fun result after => result.All (setting.Accepts after) ∧ result.name? = some name ∧
        ∃ reference, result = .dataRef reference := by
  refine (tidies_make_registry (makes_newData tidy name formals)).bind
    fun reference first retains tidy made => ?_
  obtain ⟨registry_eq, rfl, rfl⟩ := made
  have registered : setting.Registered first reference.name (.dataRef reference) :=
    ⟨resolved, length_eq, fun part mem => all_mono (formals_all part mem) retains,
      .inl ⟨reference, rfl, rfl, no_alias⟩⟩
  refine (declare_tidies tidy registered (registry_eq ▸ undeclared)).bind
    fun _ second later tidy ⟨declares, canonical, _⟩ => ?_
  refine (declareConstructors_tidies tidy declares (registered.mono later) canonical
    fun production mem named _ last => fields production mem named
      ((retains.trans later).trans last) (last.declared declares)).bind
        fun _ third last tidy _ => tidies_pure tidy ⟨?_, rfl, reference, rfl⟩
  exact all_of_children (canonical.mono last) (by simp) fun part mem =>
    all_mono (formals_all part mem) ((retains.trans later).trans last)

end Data

section Alias

variable {typeOf : Symbol → Building Ty}

/-- Filling a slot leaves a tidy world. -/
theorem fillSlot_tidies {declared : AliasRef Ty} {body : Ty} (tidy : setting.Tidy world)
    (body_all : body.All (setting.Accepts world)) :
    setting.Tidies (fillSlot name declared body) world fun _ after =>
      after.registry = world.registry ∧ after.store.body? declared ≠ none := by
  refine meets_fillSlot.mpr ?_
  split
  · next filled fill_eq =>
    have body?_eq := Store.body?_of_fill? fill_eq
    have retains : world.Retains { world with store := filled } := by
      refine .of_store fun reference known => ?_
      rw [body?_eq]
      split
      · exact nofun
      · exact known
    refine ⟨retains, tidy.of_store retains fun reference known known_eq => ?_, rfl, ?_⟩
    · rw [body?_eq] at known_eq
      split at known_eq
      · exact .inr (Option.some.inj known_eq ▸ body_all)
      · exact .inl known_eq
    · rw [body?_eq, if_pos rfl]
      exact nofun
  · exact ⟨.refl world, fun _ => nofun⟩

/-- While the body of a new alias is reconstructed, the alias is pending; afterwards it has its body,
and so has an alias of its name which was declared before. -/
theorem fillAlias_tidies {reference : AliasRef Ty} (tidy : setting.Tidy world)
    (registered : (setting.within reference.name).Registered world reference.name
      (.aliasRef reference))
    (undeclared : world.registry.lookup? reference.name = none ∨
      formalsOf setting.resolve reference.name ≠ [])
    (old_known : ∀ old, world.registry.lookup? reference.name = some (.aliasRef old) →
      world.store.body? old ≠ none)
    (body : ∀ symbol, bodySymbol? (setting.resolve reference.name) = some symbol → ∀ ⦃start⦄,
      world.Retains start → start.registry.lookup? reference.name ≠ none →
        (setting.within reference.name).Tidy start →
          (setting.within reference.name).Tidies (typeOf symbol) start fun result after =>
            result.All ((setting.within reference.name).Accepts after)) :
    (setting.within reference.name).Tidies (do
      Building.register (·.declare · reference.name (.aliasRef reference))
      let body ← bodyType typeOf (setting.resolve reference.name)
      fillSlot reference.name reference body
      return Ty.aliasRef reference) world fun result after => result = .aliasRef reference ∧
        setting.Canonical after.registry reference.name (.aliasRef reference) ∧
          after.store.body? reference ≠ none ∧ ∀ other, after.registry.lookup? reference.name =
            some (.aliasRef other) → after.store.body? other ≠ none := by
  refine (declare_tidies tidy.within registered undeclared).bind
    fun _ first retains tidy ⟨declares, canonical, found⟩ => ?_
  have body_makes : (setting.within reference.name).Tidies
      (bodyType typeOf (setting.resolve reference.name)) first fun result after =>
        result.All ((setting.within reference.name).Accepts after) := by
    unfold bodyType
    split
    · next symbol symbol_eq => exact body symbol symbol_eq retains declares tidy
    · exact tidies_pure tidy (all_of_children trivial (by simp) (List.forall_mem_nil _))
  refine body_makes.bind fun body second later tidy body_all => ?_
  refine (fillSlot_tidies tidy body_all).bind fun _ after last tidy ⟨_, known⟩ =>
    tidies_pure tidy ⟨rfl, canonical.mono (later.trans last), known, fun other other_eq => ?_⟩
  obtain ⟨type, type_eq⟩ := Option.ne_none_iff_exists'.mp declares
  obtain rfl := Option.some.inj (((later.trans last).lookup?_eq type_eq).symm.trans other_eq)
  rcases found _ type_eq with same | old_eq
  · cases same
    exact known
  · exact ((retains.trans later).trans last).known (old_known other old_eq)

/-- An alias is declared before its body, and it has one afterwards. -/
theorem declareAlias_tidies {formals : List Ty} (tidy : setting.Tidy world)
    (is_alias : IsAlias setting.resolve name) (not_pending : ¬setting.pending name)
    (length_eq : formals.length = (formalsOf setting.resolve name).length)
    (formals_all : ∀ formal ∈ formals, formal.All (setting.Accepts world))
    (undeclared : world.registry.lookup? name = none ∨ formalsOf setting.resolve name ≠ [])
    (body : ∀ symbol, bodySymbol? (setting.resolve name) = some symbol → ∀ ⦃start⦄,
      world.Retains start → start.registry.lookup? name ≠ none →
        (setting.within name).Tidy start →
          (setting.within name).Tidies (typeOf symbol) start fun result after =>
            result.All ((setting.within name).Accepts after)) :
    setting.Tidies (declareAlias typeOf name formals (setting.resolve name)) world
      fun result after => result.All (setting.Accepts after) ∧ result.name? = some name := by
  have resolved := first?_of_isAlias is_alias
  have makes : setting.Makes (Making.newAlias name formals none) world _ :=
    makes_newAlias tidy name formals nofun
  rw [declareAlias_eq]
  refine (tidies_make_registry makes).bind fun reference first retains tidy made => ?_
  obtain ⟨registry_eq, rfl, rfl, -⟩ := made
  have registered : (setting.within reference.name).Registered first reference.name
      (.aliasRef reference) :=
    ⟨resolved, length_eq, fun part mem =>
      (all_mono (formals_all part mem) retains).imp fun _ => Accepts.within,
        .inr ⟨reference, rfl, rfl, is_alias, .inr (.inr rfl)⟩⟩
  have old_known (old : AliasRef Ty)
      (old_eq : first.registry.lookup? reference.name = some (.aliasRef old)) :
      first.store.body? old ≠ none := by
    obtain ⟨_, impossible, -⟩ | ⟨_, same, -, -, known | pending⟩ := (tidy.declared old_eq).kind
    · cases impossible
    · cases same
      exact known
    · exact absurd pending not_pending
  refine (fillAlias_tidies tidy registered (registry_eq ▸ undeclared) old_known
    fun symbol symbol_eq _ later => body symbol symbol_eq (retains.trans later)).of_within
      fun result after later tidy ⟨result_eq, canonical, known, all_known⟩ =>
        ⟨tidy.of_within all_known, ?_, result_eq ▸ rfl⟩
  subst result_eq
  refine Ty.all_iff.mpr ⟨⟨⟨is_alias, canonical⟩, ?_⟩, fun part mem =>
    all_mono (formals_all part mem) (retains.trans later)⟩
  rintro _ ⟨⟩
  exact .inl known

end Alias

section Names

/-- A name which is declared or opaque may be applied to parameters, and one which is undeclared is
expanded first. -/
theorem namedWith_tidies {expand : String → Symbol → Building Ty} {actuals : List Ty}
    (tidy : setting.Tidy world) (actuals_all : ∀ actual ∈ actuals, actual.All (setting.Accepts world))
    (encloses : setting.pending name → Encloses setting.resolve name name)
    (expands : ∀ production, (setting.resolve name).first? = some production →
      world.registry.lookup? name = none →
        setting.Tidies (expand name production.subject) world fun result after =>
          result.All (setting.Accepts after) ∧ result.name? = some name ∧
            (¬IsAlias setting.resolve name → ∃ reference, result = .dataRef reference)) :
    setting.Tidies (namedWith setting.resolve expand name actuals) world fun result after =>
      result.All (setting.Accepts after) ∧ result.name? = some name ∧
        (¬IsAlias setting.resolve name → ∃ reference, result = .dataRef reference) := by
  refine tidies_get ?_
  split
  · next declared lookup_eq =>
    have registered := tidy.declared lookup_eq
    refine (applied_tidies tidy registered.name?_eq (registered.all lookup_eq encloses)
      registered.parameters actuals_all).mono fun _ _ _ _ ⟨all, name_eq, data⟩ =>
        ⟨all, name_eq, fun no_alias => data ?_⟩
    obtain ⟨reference, rfl, -⟩ | ⟨_, _, _, is_alias, _⟩ := registered.kind
    · exact ⟨reference, rfl⟩
    · exact absurd is_alias no_alias
  · next undeclared =>
    split
    · next production first_eq =>
      refine (expands production first_eq undeclared).bind
        fun declared first retains tidy ⟨all, name_eq, data⟩ => ?_
      have parameters_all : ∀ part ∈ declared.parameters, part.All (setting.Accepts first) := by
        intro part mem
        cases declared with
        | dataRef | aliasRef => exact (Ty.all_iff.mp all).2 part mem
        | _ => exact absurd mem List.not_mem_nil
      exact (applied_tidies tidy name_eq all parameters_all fun actual mem =>
        all_mono (actuals_all actual mem) retains).mono fun _ _ _ _ ⟨all, name_eq, kept⟩ =>
          ⟨all, name_eq, fun no_alias => kept (data no_alias)⟩
    · next first_eq =>
      refine (tidies_make (makes_newData tidy name actuals)).bind
        fun reference first retains tidy made => tidies_pure tidy ?_
      obtain ⟨rfl, rfl⟩ := made
      exact ⟨all_of_children (.inl first_eq) (by simp) fun part mem =>
        all_mono (actuals_all part mem) retains, rfl, fun _ => ⟨reference, rfl⟩⟩

/-- Whether a name may be met in a world: it is reached from the bodies of all pending aliases, and
the depth suffices to expand it. -/
structure Admits (setting : Setting) (names : Finset String) (depth : Nat) (world : World)
    (name : String) : Prop where
  encloses : ∀ ⦃other⦄, setting.pending other → Encloses setting.resolve other name
  pending_declared : ∀ ⦃other⦄, setting.pending other → world.registry.lookup? other ≠ none
  exempts : ∀ ⦃other⦄, Relation.ReflTransGen (Leads setting.resolve) name other →
    ∀ symbol ∈ formalsOf setting.resolve other ++ contentsOf setting.resolve other,
      setting.Exempts symbol
  suffices_ : (setting.resolve name).first? ≠ none → Terminating setting.resolve →
    Suffices setting.resolve names depth world name

variable {names : Finset String} {depth : Nat} {start : World} {other : String}

theorem Admits.mono (admits : setting.Admits names depth world name)
    (retains : world.Retains start) : setting.Admits names depth start name where
  encloses := admits.encloses
  pending_declared _ pending := retains.declared (admits.pending_declared pending)
  exempts := admits.exempts
  suffices_ resolved terminating := (admits.suffices_ resolved terminating).mono retains

theorem Admits.of_within (admits : (setting.within name).Admits names depth world other) :
    setting.Admits names depth world other where
  encloses _ pending := admits.encloses (.inl pending)
  pending_declared _ pending := admits.pending_declared (.inl pending)
  exempts := admits.exempts
  suffices_ := admits.suffices_

/-- The names in the formal parameters of a name are met before it is declared. -/
theorem Admits.of_requires (admits : setting.Admits names (depth + 1) world name)
    (requires : Requires setting.resolve name other)
    (mem : (setting.resolve other).first? ≠ none → other ∈ names)
    (resolved : (setting.resolve name).first? ≠ none) : setting.Admits names depth world other := by
  obtain ⟨formal, formal_mem, formal_names⟩ := requires
  have leads : Leads setting.resolve name other :=
    ⟨formal, List.mem_append_left _ formal_mem, formal_names⟩
  refine ⟨fun pending_name pending => ?_, admits.pending_declared,
    fun last path => admits.exempts (.head leads path), fun other_resolved terminating => ?_⟩
  · obtain ⟨symbol, symbol_mem, reaches⟩ := admits.encloses pending
    exact ⟨symbol, symbol_mem, reaches.leads leads⟩
  · exact (admits.suffices_ resolved terminating).of_requires terminating.acyclic
      ⟨formal, formal_mem, formal_names⟩ (mem other_resolved)

/-- The names in the body or in the fields of a name are met after it has been declared. -/
theorem Admits.of_content (admits : setting.Admits names (depth + 1) world name)
    (resolved : (setting.resolve name).first? ≠ none) (mem : name ∈ names)
    (undeclared_eq : world.registry.lookup? name = none) (retains : world.Retains start)
    (declares : start.registry.lookup? name ≠ none) {symbol : Symbol}
    (content : symbol ∈ contentsOf setting.resolve name) (symbol_names : symbol.Names other) :
    (setting.within name).Admits names depth start other := by
  have leads : Leads setting.resolve name other :=
    ⟨symbol, List.mem_append_right _ content, symbol_names⟩
  refine ⟨?_, ?_, fun last path => admits.exempts (.head leads path), fun _ terminating => ?_⟩
  · rintro last (pending | rfl)
    · obtain ⟨part, part_mem, reaches⟩ := admits.encloses pending
      exact ⟨part, part_mem, reaches.leads leads⟩
    · exact ⟨symbol, content, other, symbol_names, .refl⟩
  · rintro last (pending | rfl)
    · exact retains.declared (admits.pending_declared pending)
    · exact declares
  · have name_mem : name ∈ undeclared names world := by
      classical
      exact Finset.mem_filter.mpr ⟨mem, undeclared_eq⟩
    exact (admits.suffices_ resolved terminating).of_declared name_mem retains declares other

/-- Whether a name which is admitted can be expanded, and leaves a tidy world. -/
def Expands (setting : Setting) (names : Finset String) (depth : Nat) : Prop :=
  ∀ ⦃name production world⦄, (setting.resolve name).first? = some production →
    setting.Admits names depth world name → setting.Tidy world →
      world.registry.lookup? name = none →
        setting.Tidies (expandWithin setting.resolve depth name production.subject) world
          fun result after => result.All (setting.Accepts after) ∧ result.name? = some name ∧
            (¬IsAlias setting.resolve name → ∃ reference, result = .dataRef reference)

/-- The type of a symbol may occur if the names in it are admitted and can be expanded. -/
theorem Expands.typeWithin_tidies (expands : setting.Expands names depth) {symbol : Symbol}
    (exempts : setting.Exempts symbol)
    (admits : ∀ name, symbol.Names name → setting.Admits names depth world name)
    (retains : world.Retains start) (tidy : setting.Tidy start) :
    setting.Tidies (typeWithin setting.resolve depth symbol) start fun result after =>
      setting.Fits after symbol result := by
  refine typeWith_tidies (fun name _ tidy => sortWith_tidies tidy name) exempts
    (fun name symbol_names start _ later tidy actuals_all => ?_) retains tidy
  exact namedWith_tidies tidy actuals_all (fun pending => (admits name symbol_names).encloses pending)
    fun production first_eq undeclared_eq =>
      expands first_eq ((admits name symbol_names).mono later) tidy undeclared_eq

section Parts

variable (admits : setting.Admits names (depth + 1) world name)
  (mem_names : ∀ name, (setting.resolve name).first? ≠ none → name ∈ names)
  (resolved : (setting.resolve name).first? ≠ none)
  (undeclared_eq : world.registry.lookup? name = none)

include admits mem_names resolved undeclared_eq

/-- The formal parameters of a name, if it has some, may lead back to it. -/
theorem formals_tidies (expands : setting.Expands names depth) (tidy : setting.Tidy world) :
    setting.Tidies (typesWith (namedWith setting.resolve (expandWithin setting.resolve depth))
      (sortWith setting.resolve) (formalsOf setting.resolve name)) world fun formals after =>
        formals.length = (formalsOf setting.resolve name).length ∧
          (∀ formal ∈ formals, formal.All (setting.Accepts after)) ∧
            (after.registry.lookup? name = none ∨ formalsOf setting.resolve name ≠ []) := by
  by_cases no_formal : formalsOf setting.resolve name = []
  · rw [no_formal]
    exact tidies_pure tidy ⟨rfl, by simp, .inl undeclared_eq⟩
  · refine (typesWith_tidies (.refl world) tidy fun formal mem _ retains tidy => ?_).mono
      fun _ _ _ _ ⟨length_eq, all⟩ => ⟨length_eq, all, .inr no_formal⟩
    exact expands.typeWithin_tidies (admits.exempts .refl formal (List.mem_append_left _ mem))
      (fun other other_names => admits.of_requires ⟨formal, mem, other_names⟩ (mem_names other)
        resolved) retains tidy

/-- While the contents of a name are reconstructed, the name is pending if it is an alias. -/
theorem content_tidies (expands : (setting.within name).Expands names depth) {symbol : Symbol}
    (content : symbol ∈ contentsOf setting.resolve name) (retains : world.Retains start)
    (declares : start.registry.lookup? name ≠ none) (tidy : (setting.within name).Tidy start) :
    (setting.within name).Tidies (typeWithin setting.resolve depth symbol) start
      fun result after => (setting.within name).Fits after symbol result :=
  expands.typeWithin_tidies (admits.exempts .refl symbol (List.mem_append_right _ content))
    (fun _ other_names => admits.of_content resolved (mem_names name resolved) undeclared_eq retains
      declares content other_names) (.refl start) tidy

theorem data_tidies (expands : setting.Expands names depth) {formals : List Ty}
    (retains : world.Retains start) (tidy : setting.Tidy start)
    (no_alias : ¬IsAlias setting.resolve name)
    (length_eq : formals.length = (formalsOf setting.resolve name).length)
    (formals_all : ∀ formal ∈ formals, formal.All (setting.Accepts start))
    (undeclared : start.registry.lookup? name = none ∨ formalsOf setting.resolve name ≠ [])
    (contents_eq : contentsOf setting.resolve name =
      ((setting.resolve name).toList.filter (·.name.isSome)).flatMap (·.symbols)) :
    setting.Tidies (declareData (fieldsWith (namedWith setting.resolve
      (expandWithin setting.resolve depth)) (sortWith setting.resolve)) name formals
        (setting.resolve name)) start fun result after =>
          result.All (setting.Accepts after) ∧ result.name? = some name ∧
            (¬IsAlias setting.resolve name → ∃ reference, result = .dataRef reference) := by
  refine (declareData_tidies tidy resolved no_alias length_eq formals_all undeclared
    fun production mem named after later declares tidy => ?_).mono
      fun _ _ _ _ ⟨all, name_eq, data⟩ => ⟨all, name_eq, fun _ => data⟩
  refine fieldsWith_tidies (.refl after) tidy fun symbol symbol_mem _ last tidy => ?_
  have content : symbol ∈ contentsOf setting.resolve name := contents_eq ▸
    List.mem_flatMap.mpr ⟨production, List.mem_filter.mpr ⟨mem, named⟩, symbol_mem⟩
  exact expands.typeWithin_tidies (admits.exempts .refl symbol (List.mem_append_right _ content))
    (fun other other_names => (admits.of_content resolved (mem_names name resolved)
      undeclared_eq (retains.trans later) declares content other_names).of_within) last tidy

end Parts

/-- Expanding a name leaves a tidy world, also while aliases are pending. -/
theorem expandWithin_tidies
    (mem_names : ∀ name, (setting.resolve name).first? ≠ none → name ∈ names) (depth : Nat) :
    setting.Expands names depth := by
  induction depth generalizing setting with
  | zero =>
    refine fun name production world first_eq admits tidy undeclared_eq =>
      ⟨.refl world, fun terminating => ?_⟩
    classical
    have resolved : (setting.resolve name).first? ≠ none := by simp [first_eq]
    exact absurd ((admits.suffices_ resolved terminating).pos
      (Finset.mem_filter.mpr ⟨mem_names name resolved, undeclared_eq⟩)) (Nat.lt_irrefl 0)
  | succ depth ih =>
    intro name production world first_eq admits tidy undeclared_eq
    have resolved : (setting.resolve name).first? ≠ none := by simp [first_eq]
    have formals_tidy := formals_tidies admits mem_names resolved undeclared_eq (ih mem_names) tidy
    unfold expandWithin
    split
    · next other parameters subject_eq =>
      have contents_eq := contentsOf_eq_of_alias first_eq subject_eq
      have is_alias : IsAlias setting.resolve name :=
        ⟨other, parameters, by rw [subjectOf?, first_eq, Option.map_some, subject_eq]⟩
      rw [← formalsOf_eq_of_alias first_eq subject_eq]
      refine formals_tidy.bind fun formals first retains tidy made => ?_
      obtain ⟨length_eq, all, undeclared⟩ := made
      refine (declareAlias_tidies tidy is_alias (fun pending => admits.pending_declared pending
        undeclared_eq) length_eq all undeclared fun symbol symbol_eq start later declares tidy =>
          ?_).mono fun _ _ _ _ declared =>
            ⟨declared.1, declared.2, fun no_alias => absurd is_alias no_alias⟩
      have content : symbol ∈ contentsOf setting.resolve name := by simp [contents_eq, symbol_eq]
      exact (content_tidies admits mem_names resolved undeclared_eq (ih mem_names) content
        (retains.trans later) declares tidy).mono fun _ _ _ _ fits => fits.all
    · next other parameters subject_eq =>
      have no_alias : ¬IsAlias setting.resolve name := by
        rintro ⟨_, _, alias_eq⟩
        simp [subjectOf?, first_eq, subject_eq] at alias_eq
      rw [← formalsOf_eq_of_data first_eq subject_eq]
      refine formals_tidy.bind fun formals first retains tidy made => ?_
      obtain ⟨length_eq, all, undeclared⟩ := made
      exact data_tidies admits mem_names resolved undeclared_eq (ih mem_names) retains tidy no_alias
        length_eq all undeclared (contentsOf_eq_of_not_alias first_eq (by simp [subject_eq]))
    · next no_alias no_data =>
      have not_alias : ¬IsAlias setting.resolve name := by
        rintro ⟨other, parameters, alias_eq⟩
        simp only [subjectOf?, first_eq, Option.map_some, Option.some.injEq] at alias_eq
        exact no_alias other parameters alias_eq
      exact data_tidies admits mem_names resolved undeclared_eq (ih mem_names) (.refl world) tidy
        not_alias (by simp [formalsOf_eq_nil first_eq no_alias no_data]) (by simp)
          (.inl undeclared_eq) (contentsOf_eq_of_not_alias first_eq no_alias)

end Names

end Reification.Reconstruct.Setting
