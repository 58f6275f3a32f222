import Reification.Proofs.Depth
import Reification.Proofs.Upkeep

/-!
# Tidy reconstructions

Reconstructing a symbol in a tidy world leaves the world tidy, and every part of the result may
occur.  While the body of an alias is being reconstructed, the names which are met are reached from
it; so an alias which is met in its own body is one that is reached from it.

The reconstruction ends if aliases have no formal parameters and those of data types do not lead in
cycles.  Expansions are nested while formal parameters are followed, and once a name is declared,
fewer names are left.
-/

namespace Reification.Reconstruct.Setting

variable {setting : Setting} {world : World} {α β : Type}

/-- A declared type is applied to parameters which may occur.  It keeps its name, and a data type
stays one. -/
theorem applied_tidies {declared : Ty} {actuals : List Ty} {name : String}
    (tidy : setting.Tidy world) (name_eq : declared.name? = some name)
    (all : declared.All (setting.Accepts world))
    (parameters_all : ∀ part ∈ declared.parameters, part.All (setting.Accepts world))
    (actuals_all : ∀ actual ∈ actuals, actual.All (setting.Accepts world)) :
    setting.Tidies (applied declared actuals) world fun result after =>
      result.All (setting.Accepts after) ∧ result.name? = some name ∧
        ((∃ reference, declared = .dataRef reference) → ∃ reference, result = .dataRef reference) := by
  unfold applied
  split
  · exact tidies_pure tidy ⟨all, name_eq, id⟩
  · have asks : setting.Tidies (Building.ask fun _ store =>
        store.sameAll actuals declared.parameters) world fun _ _ => True := by
      refine tidies_ask tidy (fun terminating => ?_) fun _ _ => trivial
      exact Ty.sameAllWith_ne_none fun left left_mem right right_mem =>
        sameWith_ne_none tidy terminating (actuals_all left left_mem)
          (parameters_all right right_mem)
    refine asks.bind fun equal after retains tidy _ => ?_
    split
    · exact tidies_pure tidy ⟨all_mono all retains, name_eq, id⟩
    · have binds := binds_ofParameters declared.parameters fun actual mem =>
        all_mono (actuals_all actual mem) retains
      exact tidies_make (instantiate_makes_named tidy binds (all_mono all retains) name_eq)

/-- The owner of a constructor is the data type which its symbol stands for, or it is made up. -/
theorem ownerOf_tidies {owner : Ty} (tidy : setting.Tidy world)
    (all : owner.All (setting.Accepts world)) :
    setting.Tidies (ownerOf owner) world fun reference after =>
      reference.name = owner.name?.getD owner.display ∧
        (∀ part ∈ reference.parameters, part.All (setting.Accepts after)) ∧
          ((∃ other, owner = .dataRef other) →
            setting.Canonical after.registry reference.name (.dataRef reference)) := by
  unfold ownerOf
  split
  · exact tidies_pure tidy ⟨rfl, (Ty.all_iff.mp all).2, fun _ => all.self.1⟩
  · next no_data =>
    refine (tidies_make (makes_newData tidy _ _)).mono fun reference _ retains _ => ?_
    rintro ⟨name_eq, parameters_eq⟩
    refine ⟨name_eq, fun part mem => all_mono ?_ retains,
      fun ⟨other, owner_eq⟩ => absurd owner_eq (no_data _)⟩
    rw [parameters_eq] at mem
    cases owner with
    | dataRef | aliasRef => exact (Ty.all_iff.mp all).2 part mem
    | _ => exact absurd mem (by simp [Ty.parameters])

theorem findConstructor_tidies {bindings : Bindings} {owner name : String}
    {fields : List (Field Ty)} {constructors : List (Constructor Ty)} (tidy : setting.Tidy world)
    (binds : setting.Binds world bindings)
    (constructors_all : ∀ constructor ∈ constructors, constructor.owner.name = owner ∧
      (Ty.constructor constructor).All (setting.Accepts world))
    (fields_all : ∀ field ∈ fields, field.type.All (setting.Accepts world)) :
    setting.Tidies (findConstructor bindings name fields constructors) world fun found after =>
      ∀ type, found = some type → type.All (setting.Accepts after) ∧ type.name? = some owner := by
  induction constructors generalizing world with
  | nil => exact tidies_pure tidy nofun
  | cons constructor constructors ih =>
    obtain ⟨⟨owner_eq, head_all⟩, tail_all⟩ := List.forall_mem_cons.mp constructors_all
    have name_eq : (Ty.constructor constructor).name? = some owner := congrArg some owner_eq
    refine (tidies_make (instantiate_makes_named tidy binds head_all name_eq)).bind
      fun candidate first retains tidy kept => ?_
    obtain ⟨all, name_eq, -⟩ := kept
    have continues {after : World} (retains : world.Retains after) (tidy : setting.Tidy after) :
        setting.Tidies (findConstructor bindings name fields constructors) after fun found after =>
          ∀ type, found = some type → type.All (setting.Accepts after) ∧ type.name? = some owner :=
      ih tidy (binds.mono retains) (fun constructor mem =>
        ⟨(tail_all constructor mem).1, all_mono (tail_all constructor mem).2 retains⟩)
        fun field mem => all_mono (fields_all field mem) retains
    split
    · next found =>
      split
      · have asks : setting.Tidies (Building.ask fun _ store =>
            store.sameFields found.fields fields) first fun _ _ => True := by
          refine tidies_ask tidy (fun terminating => ?_) fun _ _ => trivial
          exact Ty.sameFieldsWith_ne_none fun left left_mem right right_mem =>
            sameWith_ne_none tidy terminating ((Ty.all_iff.mp all).2 _
              (List.mem_append_right _ (List.mem_map_of_mem left_mem)))
              (all_mono (fields_all right right_mem) retains)
        refine asks.bind fun equal second later tidy _ => ?_
        cases equal
        · exact continues (retains.trans later) tidy
        · refine tidies_pure tidy ?_
          rintro _ ⟨⟩
          exact ⟨all_mono all later, name_eq⟩
      · exact continues retains tidy
    · exact continues retains tidy

theorem constructorOf_tidies {owner : DataRef Ty} {name : String} {fields : List (Field Ty)}
    (tidy : setting.Tidy world)
    (owner_identified : setting.Canonical world.registry owner.name (.dataRef owner) ∨
      setting.exempt owner.name name)
    (parameters_all : ∀ part ∈ owner.parameters, part.All (setting.Accepts world))
    (fields_all : ∀ field ∈ fields, field.type.All (setting.Accepts world)) :
    setting.Tidies (constructorOf owner name fields) world fun result after =>
      result.All (setting.Accepts after) ∧ result.name? = some owner.name := by
  have own_eq : world.registry.constructorsOf world.store owner.name =
      some (world.registry.own.constructorsOf owner.name) :=
    Registry.constructorsOf_of_inherited_eq tidy.inherited_eq _ _
  have asks : setting.Tidies (Building.ask (·.constructorsOf · owner.name)) world
      fun constructors after => ∀ constructor ∈ constructors, constructor.owner.name = owner.name ∧
        (Ty.constructor constructor).All (setting.Accepts after) := by
    refine tidies_ask tidy (fun _ => by simp [own_eq]) fun constructors found constructor mem => ?_
    obtain rfl := Option.some.inj (own_eq.symm.trans found)
    obtain ⟨owner_eq, -, all⟩ := tidy.constructors mem
    exact ⟨owner_eq, all⟩
  refine tidies_get (asks.bind fun constructors first retains tidy constructors_all => ?_)
  refine (findConstructor_tidies tidy ((binds_ofParameters _ parameters_all).mono retains)
    constructors_all fun field mem => all_mono (fields_all field mem) retains).bind
      fun found second later tidy all => ?_
  cases found with
  | some found => exact tidies_pure tidy (all found rfl)
  | none =>
    refine (tidies_make (makes_newConstructor tidy owner name fields ∅)).bind
      fun constructor third last tidy made => tidies_pure tidy ?_
    obtain ⟨owner_eq, name_eq, fields_eq, -⟩ := made
    have grown := (retains.trans later).trans last
    have identified : setting.Identified third.registry (.constructor constructor) := by
      rw [Identified, owner_eq, name_eq]
      exact owner_identified.imp_left (·.mono grown)
    refine ⟨all_of_children identified (by simp) fun part mem => all_mono ?_ grown,
      by rw [Ty.name?, owner_eq]⟩
    rw [Ty.children, owner_eq, fields_eq] at mem
    rcases List.mem_append.mp mem with mem | mem
    · exact parameters_all part mem
    · obtain ⟨field, field_mem, rfl⟩ := List.mem_map.mp mem
      exact fields_all field field_mem

section Types

variable {named : String → List Ty → Building Ty} {sort : String → Building Unit} {start : World}

/-- Whether the type of a name may occur, in a given world and later; that of a data type is a
reference to one. -/
def NamesTidily (setting : Setting) (named : String → List Ty → Building Ty) (world : World)
    (name : String) : Prop :=
  ∀ ⦃start actuals⦄, world.Retains start → setting.Tidy start →
    (∀ actual ∈ actuals, actual.All (setting.Accepts start)) →
    setting.Tidies (named name actuals) start fun result after =>
      result.All (setting.Accepts after) ∧ result.name? = some name ∧
        (¬IsAlias setting.resolve name → ∃ reference, result = .dataRef reference)

/-- Whether an owner may have been made up for the constructors in a symbol which need one. -/
def Exempts (setting : Setting) (symbol : Symbol) : Prop :=
  ∀ ⦃owner name fields⦄, symbol.Contains (.constructor owner name fields) →
    ¬IsData setting.resolve owner → ∀ type : Ty, owner.Suits type.name? →
      setting.exempt (type.name?.getD type.display) name

theorem Exempts.of_child {symbol child : Symbol} (exempts : setting.Exempts symbol)
    (mem : child ∈ symbol.children) : setting.Exempts child :=
  fun _ _ _ contains => exempts (contains.of_child mem)

/-- Whether a type may be that of a symbol. -/
structure Fits (setting : Setting) (world : World) (symbol : Symbol) (type : Ty) : Prop where
  all : type.All (setting.Accepts world)
  suits : symbol.Suits type.name?
  data : IsData setting.resolve symbol → ∃ reference, type = .dataRef reference

/-- A symbol which is no reference to a declaration stands for no data type. -/
theorem Fits.of_all {symbol : Symbol} {type : Ty} (all : type.All (setting.Accepts world))
    (suits : symbol.Suits type.name?)
    (no_name : ∀ name parameters, symbol.withoutLabels ≠ .dataRef name parameters ∧
      symbol.withoutLabels ≠ .aliasRef name parameters) : setting.Fits world symbol type := by
  refine ⟨all, suits, ?_⟩
  rintro ⟨name, parameters, data | alias_, -⟩
  · exact absurd data (no_name name parameters).1
  · exact absurd alias_ (no_name name parameters).2

theorem typesWith_tidies {symbols : List Symbol} (retains : world.Retains start)
    (tidy : setting.Tidy start)
    (types : ∀ symbol ∈ symbols, ∀ ⦃start⦄, world.Retains start → setting.Tidy start →
      setting.Tidies (typeWith named sort symbol) start fun result after =>
        setting.Fits after symbol result) :
    setting.Tidies (typesWith named sort symbols) start fun results after =>
      results.length = symbols.length ∧ ∀ result ∈ results, result.All (setting.Accepts after) := by
  induction symbols generalizing start with
  | nil => exact tidies_pure tidy ⟨rfl, by simp⟩
  | cons symbol symbols ih =>
    obtain ⟨head, tail⟩ := List.forall_mem_cons.mp types
    refine (head retains tidy).bind fun result first later tidy fits => ?_
    refine (ih (retains.trans later) tidy tail).bind
      fun results second last tidy ⟨length_eq, results_all⟩ => tidies_pure tidy ⟨?_, ?_⟩
    · simp [length_eq]
    · exact List.forall_mem_cons.mpr ⟨all_mono fits.all last, results_all⟩

theorem fieldsWith_tidies {symbols : List Symbol} (retains : world.Retains start)
    (tidy : setting.Tidy start)
    (types : ∀ symbol ∈ symbols, ∀ ⦃start⦄, world.Retains start → setting.Tidy start →
      setting.Tidies (typeWith named sort symbol) start fun result after =>
        setting.Fits after symbol result) :
    setting.Tidies (fieldsWith named sort symbols) start fun results after =>
      ∀ field ∈ results, field.type.All (setting.Accepts after) := by
  induction symbols generalizing start with
  | nil => exact tidies_pure tidy (by simp)
  | cons symbol symbols ih =>
    obtain ⟨head, tail⟩ := List.forall_mem_cons.mp types
    refine (head retains tidy).bind fun result first later tidy fits => ?_
    refine (ih (retains.trans later) tidy tail).bind
      fun results second last tidy results_all => tidies_pure tidy ?_
    exact List.forall_mem_cons.mpr ⟨all_mono fits.all last, results_all⟩

/-- The type of a symbol may occur if those of the names in it may. -/
theorem typeWith_tidies
    (sorts : ∀ ⦃name start⦄, setting.Tidy start → setting.Tidies (sort name) start fun _ _ => True)
    {symbol : Symbol} (exempts : setting.Exempts symbol)
    (names : ∀ name, symbol.Names name → setting.NamesTidily named world name)
    (retains : world.Retains start) (tidy : setting.Tidy start) :
    setting.Tidies (typeWith named sort symbol) start fun result after =>
      setting.Fits after symbol result := by
  induction symbol using Symbol.induction generalizing start with
  | prim =>
    exact tidies_pure tidy (.of_all (all_of_children trivial (by simp) (List.forall_mem_nil _)) rfl
      (by simp [Symbol.withoutLabels]))
  | label name inner ih =>
    exact (ih (exempts.of_child (List.mem_singleton_self _)) names retains tidy).mono
      fun _ _ _ _ fits => ⟨fits.all, fits.suits, fits.data⟩
  | list _ ih | set _ ih | reified _ ih | parameter _ _ ih =>
    refine (ih (exempts.of_child (List.mem_singleton_self _)) names retains tidy).bind
      fun result _ _ tidy fits => tidies_pure tidy (.of_all ?_ rfl (by simp [Symbol.withoutLabels]))
    exact all_of_children trivial (by simp) (List.forall_mem_singleton.mpr fits.all)
  | map _ _ ih_key ih_value =>
    simp only [Symbol.names_map] at names
    refine (ih_key (exempts.of_child (by simp [Symbol.children])) (fun _ named =>
      names _ (.inl named)) retains tidy).bind fun key first later tidy key_fits => ?_
    refine (ih_value (exempts.of_child (by simp [Symbol.children])) (fun _ named =>
      names _ (.inr named)) (retains.trans later) tidy).bind
        fun value second last tidy value_fits =>
          tidies_pure tidy (.of_all ?_ rfl (by simp [Symbol.withoutLabels]))
    exact all_of_children trivial (by simp) (List.forall_mem_cons.mpr
      ⟨all_mono key_fits.all last, List.forall_mem_singleton.mpr value_fits.all⟩)
  | tuple fields ih =>
    simp only [Symbol.names_tuple] at names
    refine (fieldsWith_tidies retains tidy fun field mem _ retains tidy =>
      ih field mem (exempts.of_child mem) (fun _ named => names _ ⟨field, mem, named⟩) retains
        tidy).bind fun fields _ _ tidy fields_all =>
          tidies_pure tidy (.of_all ?_ rfl (by simp [Symbol.withoutLabels]))
    exact all_of_children trivial (by simp) (List.forall_mem_map.mpr fields_all)
  | func result arguments ih ih_arguments =>
    simp only [Symbol.names_func] at names
    refine (ih (exempts.of_child (List.mem_cons_self ..)) (fun _ named => names _ (.inl named))
      retains tidy).bind fun result first later tidy fits => ?_
    refine (fieldsWith_tidies (retains.trans later) tidy fun field mem _ retains tidy =>
      ih_arguments field mem (exempts.of_child (List.mem_cons_of_mem _ mem)) (fun _ named =>
        names _ (.inr ⟨field, mem, named⟩)) retains tidy).bind
          fun fields _ last tidy fields_all =>
            tidies_pure tidy (.of_all ?_ rfl (by simp [Symbol.withoutLabels]))
    exact all_of_children trivial (by simp) (List.forall_mem_cons.mpr
      ⟨all_mono fits.all last, List.forall_mem_map.mpr fields_all⟩)
  | dataRef name parameters ih =>
    simp only [Symbol.names_dataRef] at names
    refine (typesWith_tidies retains tidy fun symbol mem _ retains tidy =>
      ih symbol mem (exempts.of_child mem) (fun _ named => names _ (.inr ⟨symbol, mem, named⟩))
        retains tidy).bind fun actuals first later tidy actuals_made => ?_
    refine (names name (.inl rfl) (retains.trans later) tidy actuals_made.2).mono
      fun result _ _ _ named => ?_
    exact ⟨named.1, named.2.1, fun is_data => named.2.2 (isData_dataRef.mp is_data)⟩
  | aliasRef name parameters ih =>
    simp only [Symbol.names_aliasRef] at names
    refine (typesWith_tidies retains tidy fun symbol mem _ retains tidy =>
      ih symbol mem (exempts.of_child mem) (fun _ named => names _ (.inr ⟨symbol, mem, named⟩))
        retains tidy).bind fun actuals first later tidy actuals_made => ?_
    refine (names name (.inl rfl) (retains.trans later) tidy actuals_made.2).mono
      fun result _ _ _ named => ?_
    exact ⟨named.1, named.2.1, fun is_data => named.2.2 (isData_aliasRef.mp is_data)⟩
  | constructor owner name fields ih ih_fields =>
    simp only [Symbol.names_constructor] at names
    refine (ih (exempts.of_child (List.mem_cons_self ..)) (fun _ named => names _ (.inl named))
      retains tidy).bind fun ownerType first later tidy owner_fits => ?_
    refine (ownerOf_tidies tidy owner_fits.all).bind
      fun reference second next_ tidy owner_made => ?_
    obtain ⟨owner_eq, parameters_all, canonical⟩ := owner_made
    have identified : setting.Canonical second.registry reference.name (.dataRef reference) ∨
        setting.exempt reference.name name := by
      by_cases data : IsData setting.resolve owner
      · exact .inl (canonical (owner_fits.data data))
      · exact .inr (owner_eq ▸ exempts .refl data ownerType owner_fits.suits)
    refine (fieldsWith_tidies ((retains.trans later).trans next_) tidy fun field mem _ retains tidy =>
      ih_fields field mem (exempts.of_child (List.mem_cons_of_mem _ mem)) (fun _ named =>
        names _ (.inr ⟨field, mem, named⟩)) retains tidy).bind
          fun fields third last tidy fields_all => ?_
    refine (constructorOf_tidies tidy (identified.imp_left (·.mono last))
      (fun part mem => all_mono (parameters_all part mem) last) fields_all).mono
        fun _ _ _ _ made => .of_all made.1 ?_ (by simp [Symbol.withoutLabels])
    exact ⟨ownerType, owner_fits.suits, owner_eq ▸ made.2⟩
  | sort name =>
    refine (sorts tidy).bind fun _ _ _ tidy _ =>
      tidies_pure tidy (.of_all ?_ rfl (by simp [Symbol.withoutLabels]))
    exact all_of_children trivial (by simp) (List.forall_mem_nil _)

end Types

section Declarations

variable {name : String} {type : Ty}

/-- A change of the rules leaves all else as it is. -/
theorem sortWith_tidies (tidy : setting.Tidy world) (name : String) :
    setting.Tidies (sortWith setting.resolve name) world fun _ _ => True := by
  unfold sortWith
  split
  · next rule _ =>
    have retains : world.Retains { world with
        registry := world.registry.addRules name rule.subject (setting.resolve name).toList } :=
      .of_registry rfl rfl
    exact Building.meets_register.mpr ⟨retains,
      tidy.of_retains retains rfl (fun _ _ => .inl) (fun _ _ => .inl) fun _ _ => .inl, trivial⟩
  · exact tidies_pure tidy trivial

theorem Registered.name?_eq (registered : setting.Registered world name type) :
    type.name? = some name := by
  obtain ⟨reference, rfl, rfl, -⟩ | ⟨reference, rfl, rfl, -⟩ := registered.kind <;> rfl

/-- A declared type may occur where its name is met. -/
theorem Registered.all (registered : setting.Registered world name type)
    (lookup_eq : world.registry.lookup? name = some type)
    (encloses : setting.pending name → Encloses setting.resolve name name) :
    type.All (setting.Accepts world) := by
  obtain ⟨reference, rfl, rfl, -⟩ | ⟨reference, rfl, rfl, is_alias, known⟩ := registered.kind
  · exact all_of_children (.inr ⟨_, lookup_eq, fun _ => rfl⟩) (by simp) registered.parameters
  · refine Ty.all_iff.mpr ⟨⟨⟨is_alias, .inr ⟨_, lookup_eq, fun _ => rfl⟩⟩, ?_⟩, registered.parameters⟩
    rintro _ ⟨⟩
    exact known.imp_right fun pending => .inl ⟨lookup_eq, pending, encloses pending⟩

/-- A data type or an alias with the parameters of a declared one is compared with it to the end. -/
theorem Registered.same_ne_none (tidy : setting.Tidy world)
    (terminating : Terminating setting.resolve) {existing : Ty}
    (existing_registered : setting.Registered world name existing)
    (registered : setting.Registered world name type)
    (repeated : formalsOf setting.resolve name ≠ []) : world.store.same existing type ≠ none := by
  have not_alias : ¬IsAlias setting.resolve name :=
    fun is_alias => repeated (terminating.formals_eq_nil name is_alias)
  have allAliases {type : Ty} (registered : setting.Registered world name type) :
      type.AllAliases fun reference => setting.Accepts world (.aliasRef reference) := by
    obtain ⟨reference, rfl, -⟩ | ⟨_, _, _, is_alias, _⟩ := registered.kind
    · exact (Ty.allAliases_dataRef _).mpr fun part mem =>
        (registered.parameters part mem).allAliases fun _ => id
    · exact absurd is_alias not_alias
  exact Ty.sameWith_ne_none (fun _ _ => Accepts.unique tidy terminating)
    (allAliases existing_registered) (allAliases registered)

/-- A name is declared as the type which its alternatives tell, or it is declared already since its
formal parameters lead back to it. -/
theorem declare_tidies (tidy : setting.Tidy world)
    (registered : setting.Registered world name type)
    (undeclared : world.registry.lookup? name = none ∨ formalsOf setting.resolve name ≠ []) :
    setting.Tidies (Building.register (·.declare · name type)) world fun _ after =>
      after.registry.lookup? name ≠ none ∧ setting.Canonical after.registry name type ∧
        ∀ found, after.registry.lookup? name = some found →
          found = type ∨ world.registry.lookup? name = some found := by
  refine Building.meets_register.mpr ?_
  rcases lookup_eq : world.registry.lookup? name with _ | existing
  · rw [Registry.declare_of_undeclared lookup_eq]
    let after : World := { world with registry := { world.registry with
      own := { world.registry.own with
        declarations := world.registry.own.declarations.insert name type } } }
    have declared_eq (other : String) : after.registry.lookup? other =
        if other = name then some type else world.registry.lookup? other :=
      Registry.lookup?_insert other
    have retains : world.Retains after := ⟨⟨[name], .single lookup_eq rfl rfl⟩, fun _ => id⟩
    have found : after.registry.lookup? name = some type := (declared_eq name).trans (if_pos rfl)
    have declares : after.registry.lookup? name ≠ none := by
      rw [found]
      exact nofun
    refine ⟨retains, ?_, declares, Or.inr ⟨type, found, fun _ => rfl⟩, fun other found_eq =>
      Or.inl (Option.some.inj (found_eq.symm.trans found))⟩
    refine tidy.of_retains retains rfl (fun other existing declared => ?_) (fun _ _ => .inl)
      fun _ _ => .inl
    by_cases same : other = name
    · subst same
      obtain rfl := Option.some.inj (found.symm.trans declared)
      exact .inr registered
    · rw [declared_eq, if_neg same] at declared
      exact .inl declared
  · have repeated : formalsOf setting.resolve name ≠ [] :=
      undeclared.resolve_left (by simp [lookup_eq])
    have existing_registered := tidy.declared lookup_eq
    have some_parameter : existing.parameters ≠ [] := fun none => repeated <| by
      have length_eq := existing_registered.length_eq
      rw [none] at length_eq
      exact List.length_eq_zero_iff.mp length_eq.symm
    rw [Registry.declare_of_declared lookup_eq]
    rcases same_eq : world.store.same existing type with _ | _ | _
    · exact ⟨.refl world, fun terminating =>
        absurd same_eq (existing_registered.same_ne_none tidy terminating registered repeated)⟩
    · exact ⟨.refl world, fun _ => nofun⟩
    · exact ⟨.refl world, tidy, by simp [lookup_eq],
        .inr ⟨existing, lookup_eq, fun none => absurd none some_parameter⟩,
        fun _ found_eq => .inr (lookup_eq.symm.trans found_eq)⟩

end Declarations

end Reification.Reconstruct.Setting
