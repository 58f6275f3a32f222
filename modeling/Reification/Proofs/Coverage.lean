import Reification.Proofs.Closure

/-!
# Coverage

A reconstruction which ends has declared every name which it has met and has alternatives, and has
added the rules of every nonterminal.  While a name is being expanded, its own alternatives need not
have been met; every other declared name is complete.

A name is looked up before its formal parameters are reconstructed and declared after that.  Hence
the only declaration which can conflict is that of a name to which its formal parameters lead back,
and no other error occurs.
-/

namespace Reification

theorem OrderedSet.not_mem_of_first?_eq_none {α : Type} [Ord α] {elements : OrderedSet α}
    (first_eq : elements.first? = none) (element : α) : element ∉ elements := by
  have empty : elements.toList = [] := List.head?_eq_none_iff.mp first_eq
  simp [← OrderedSet.mem_toList, empty]

namespace Reconstruct

variable {resolve : Resolver} {names wider : String → Prop} {world : World} {α β : Type}
  {mentions more : List Mention}

/-- Whether all that is known of a mentioned name has been declared. -/
def Covered (resolve : Resolver) (world : World) : Mention → Prop
  | .dataRef name | .aliasRef name =>
    (resolve name).first? ≠ none → world.registry.lookup? name ≠ none
  | .sort name => ∀ rule ∈ resolve name, rule ∈ world.registry.rulesOf name

/-- The mentions in the alternatives of a name. -/
def mentionsOf (resolve : Resolver) (name : String) : List Mention :=
  Symbol.mentionsOfAll (formalsOf resolve name ++ contentsOf resolve name)

/-- A list of names which is closed under mentions has all names which are reached. -/
theorem Reaches.mem_of_closed {symbol : Symbol} {names : List String}
    (start : ∀ mention ∈ symbol.mentions, mention.name ∈ names)
    (closed : ∀ user ∈ names, ∀ mention ∈ mentionsOf resolve user, mention.name ∈ names)
    {name : String} (reaches : Reaches resolve symbol name) : name ∈ names := by
  obtain ⟨first, ⟨mention, mem, declared⟩, path⟩ := reaches
  induction path with
  | refl => exact Mention.name_of_declared declared ▸ start mention mem
  | tail _ leads ih =>
    obtain ⟨content, content_mem, next, next_mem, declared⟩ := leads
    exact Mention.name_of_declared declared ▸
      closed _ ih next (Symbol.mem_mentionsOfAll content_mem next_mem)

/-- Whether every declared name is complete, apart from those which are being expanded: the body of
an alias is known, and all mentions in the alternatives are covered. -/
def Complete (resolve : Resolver) (expanding : String → Prop) (world : World) : Prop :=
  ∀ ⦃name type⦄, world.registry.lookup? name = some type → ¬expanding name →
    world.store.Fills type ∧ ∀ mention ∈ mentionsOf resolve name, Covered resolve world mention

/-- A world in which some more of some names have been declared. -/
structure Advances (resolve : Resolver) (names : String → Prop) (before after : World) : Prop
    extends before.Extends after where
  names_of_new : ∀ ⦃name⦄, before.registry.lookup? name = none →
    after.registry.lookup? name ≠ none → names name
  complete : ∀ ⦃expanding⦄, Complete resolve expanding before → Complete resolve expanding after

theorem Covered.of_extends {after : World} {mention : Mention}
    (covered : Covered resolve world mention) (extends_ : world.Extends after) :
    Covered resolve after mention := by
  cases mention with
  | dataRef name | aliasRef name => exact fun some => extends_.declared (covered some)
  | sort name => exact fun rule mem => extends_.rules_le (covered rule mem)

theorem Complete.of_extends {after : World} {expanding : String → Prop}
    (complete : Complete resolve expanding world) (extends_ : world.Extends after)
    (old : ∀ name type, after.registry.lookup? name = some type → ¬expanding name →
      world.registry.lookup? name = some type) : Complete resolve expanding after := by
  intro name type declared closed
  obtain ⟨fills, covered⟩ := complete (old name type declared closed) closed
  exact ⟨extends_.grows.fills fills, fun mention mem => (covered mention mem).of_extends extends_⟩

namespace Advances

variable {before middle after : World}

theorem refl (world : World) : Advances resolve names world world :=
  ⟨.refl _, fun _ undeclared declared => absurd undeclared declared, fun _ => id⟩

theorem trans (first : Advances resolve names before middle)
    (second : Advances resolve names middle after) : Advances resolve names before after where
  toExtends := first.toExtends.trans second.toExtends
  names_of_new name undeclared declared := by
    cases lookup_eq : middle.registry.lookup? name with
    | none => exact second.names_of_new lookup_eq declared
    | some type => exact first.names_of_new undeclared (by simp [lookup_eq])
  complete _ complete := second.complete (first.complete complete)

theorem mono (advances : Advances resolve names before after)
    (le : ∀ name, names name → wider name) : Advances resolve wider before after :=
  ⟨advances.toExtends, fun name undeclared declared =>
    le name (advances.names_of_new undeclared declared), advances.complete⟩

/-- A change which declares nothing. -/
theorem of_lookup?_eq (extends_ : before.Extends after)
    (lookup_eq : ∀ name, after.registry.lookup? name = before.registry.lookup? name) :
    Advances resolve names before after where
  toExtends := extends_
  names_of_new name undeclared declared := absurd ((lookup_eq name).trans undeclared) declared
  complete _ complete := complete.of_extends extends_ fun name _ declared _ =>
    lookup_eq name ▸ declared

theorem of_store {store : Store} (grows : before.store.Grows store) :
    Advances resolve names before { before with store } :=
  .of_lookup?_eq (.of_store grows) fun _ => rfl

/-- A name which is declared and then expanded is complete in the end.  The body of an alias is
filled in only then. -/
theorem of_expanded {name : String} {store : Store} (mem : names name)
    (extends_ : before.Extends middle)
    (old : ∀ other type, middle.registry.lookup? other = some type → other ≠ name →
      before.registry.lookup? other = some type)
    (advances : Advances resolve names middle after)
    (covered : ∀ mention ∈ mentionsOf resolve name, Covered resolve after mention)
    (grows : before.store.Grows store)
    (fills_le : ∀ type, after.store.Fills type → store.Fills type)
    (fills : before.registry.lookup? name = none →
      ∀ type, after.registry.lookup? name = some type → store.Fills type) :
    Advances resolve names before { after with store } where
  grows := grows
  lookup?_eq _ _ declared := advances.lookup?_eq (extends_.lookup?_eq declared)
  constructors_le _ _ mem := advances.constructors_le (extends_.constructors_le mem)
  rules_le _ _ mem := advances.rules_le (extends_.rules_le mem)
  names_of_new other undeclared declared := by
    by_cases same : other = name
    · exact same ▸ mem
    · refine advances.names_of_new ?_ declared
      refine Option.eq_none_iff_forall_ne_some.mpr fun type known => ?_
      simp [old other type known same] at undeclared
  complete expanding complete := by
    have started : Complete resolve (fun other => expanding other ∨ other = name) middle := by
      intro other type declared closed
      obtain ⟨closed, distinct⟩ := not_or.mp closed
      obtain ⟨fills, covered⟩ := complete (old other type declared distinct) closed
      exact ⟨extends_.grows.fills fills, fun mention mem =>
        (covered mention mem).of_extends extends_⟩
    intro other type declared closed
    by_cases same : other = name
    · subst same
      refine ⟨?_, covered⟩
      cases known : before.registry.lookup? other with
      | none => exact fills known type declared
      | some existing =>
        obtain rfl : existing = type := by
          simpa [advances.lookup?_eq (extends_.lookup?_eq known)] using declared
        exact grows.fills (complete known closed).1
    · obtain ⟨fills, covered⟩ := advances.complete started declared (not_or.mpr ⟨closed, same⟩)
      exact ⟨fills_le type fills, covered⟩

end Advances

/-- A computation does not end, or one of some names leads back to itself through its formal
parameters and is declared twice. -/
def Repeats (resolve : Resolver) (names : String → Prop) (failure : Failure) : Prop :=
  failure = .endless ∨ ∃ name existing offered, names name ∧ ReachesItself resolve name ∧
    failure = .error (.conflicting name existing offered)

theorem Repeats.mono {failure : Failure} (repeats : Repeats resolve names failure)
    (le : ∀ name, names name → wider name) : Repeats resolve wider failure :=
  repeats.imp_right fun ⟨name, existing, offered, mem, rest⟩ =>
    ⟨name, existing, offered, le name mem, rest⟩

/-- A computation covers some mentions and declares only some of some names, and it fails only
because one of them leads back to itself. -/
def Keeps (resolve : Resolver) (names : String → Prop) (mentions : List Mention)
    (building : Building α) (world : World) : Prop :=
  building.Meets world (fun _ after => Advances resolve names world after ∧
      ∀ mention ∈ mentions, Covered resolve after mention)
    fun failure _ => Repeats resolve names failure

namespace Keeps

theorem of_advances {building : Building α}
    (meets : building.Meets world (fun _ after => Advances resolve names world after)
      fun failure _ => Repeats resolve names failure) : Keeps resolve names [] building world :=
  meets.mono (fun _ _ advances => ⟨advances, fun _ mem => nomatch mem⟩) fun _ _ => id

theorem pure (result : α) : Keeps resolve names [] (pure result) world :=
  .of_advances (Building.meets_pure.mpr (.refl _))

/-- The rest of a computation may use which names its first step declares and what it covers. -/
theorem bind_of_le {building : Building α} {next : α → Building β}
    (first : Keeps resolve names mentions building world) (le : ∀ name, names name → wider name)
    (second : ∀ result after, Advances resolve names world after →
      (∀ mention ∈ mentions, Covered resolve after mention) →
      Keeps resolve wider more (next result) after) :
    Keeps resolve wider (mentions ++ more) (building >>= next) world := by
  refine Building.meets_bind.mpr (Building.Meets.mono first ?_ ?_)
  · rintro result after ⟨advances, covered⟩
    refine Building.Meets.mono (second result after advances covered) ?_ fun _ _ => id
    rintro _ last ⟨later, covered_later⟩
    refine ⟨(advances.mono le).trans later, fun mention mem => ?_⟩
    rcases List.mem_append.mp mem with mem | mem
    · exact (covered mention mem).of_extends later.toExtends
    · exact covered_later mention mem
  · exact fun _ _ failed => failed.mono le

theorem bind {building : Building α} {next : α → Building β}
    (first : Keeps resolve names mentions building world)
    (second : ∀ result after, Advances resolve names world after →
      Keeps resolve names more (next result) after) :
    Keeps resolve names (mentions ++ more) (building >>= next) world :=
  first.bind_of_le (fun _ => id) fun result after advances _ => second result after advances

/-- The rest of a computation need not cover anything. -/
theorem bind_last {building : Building α} {next : α → Building β}
    (first : Keeps resolve names mentions building world)
    (second : ∀ result after, Advances resolve names world after →
      Keeps resolve names [] (next result) after) :
    Keeps resolve names mentions (building >>= next) world := by
  simpa using first.bind second

theorem mono {building : Building α} (keeps : Keeps resolve names mentions building world)
    (le : ∀ name, names name → wider name) : Keeps resolve wider mentions building world := by
  exact Building.Meets.mono keeps (fun _ _ ⟨advances, covered⟩ => ⟨advances.mono le, covered⟩)
    fun _ _ failed => failed.mono le

theorem of_subset {building : Building α} (keeps : Keeps resolve names mentions building world)
    (subset : more ⊆ mentions) : Keeps resolve names more building world :=
  Building.Meets.mono keeps (fun _ _ ⟨advances, covered⟩ =>
    ⟨advances, fun mention mem => covered mention (subset mem)⟩) fun _ _ => id

/-- An alias is covered in the same way as a data type. -/
theorem of_alias {building : Building α} {name : String}
    (keeps : Keeps resolve names [.dataRef name] building world) :
    Keeps resolve names [.aliasRef name] building world :=
  Building.Meets.mono keeps (fun _ _ ⟨advances, covered⟩ =>
    ⟨advances, List.forall_mem_singleton.mpr (covered (.dataRef name) (List.mem_singleton_self _))⟩)
    fun _ _ => id

theorem make {making : Making α} (keeps : making.Keeps) :
    Keeps resolve names [] (Building.make making) world := by
  refine .of_advances (Building.meets_make.mpr ?_)
  split
  · next run_eq => exact .of_store (keeps run_eq)
  · exact .inl rfl

theorem ask (question : Registry → Store → Option α) :
    Keeps resolve names [] (Building.ask question) world := by
  refine .of_advances (Building.meets_ask.mpr ?_)
  split
  · exact .refl _
  · exact .inl rfl

/-- A computation may look at its world first. -/
theorem get_bind {next : World → Building α}
    (keeps : Keeps resolve names mentions (next world) world) :
    Keeps resolve names mentions (get >>= next) world :=
  Building.meets_bind.mpr keeps

/-- A computation may go on with references which it has made. -/
theorem make_bind {making : Making α} {next : α → Building β} {result : α} {store : Store}
    (run_eq : making.run world.store = some (result, store)) (grows : world.store.Grows store)
    (keeps : Keeps resolve names mentions (next result) { world with store }) :
    Keeps resolve names mentions (Building.make making >>= next) world := by
  refine Building.meets_bind.mpr (Building.meets_make.mpr ?_)
  rw [run_eq]
  exact Building.Meets.mono keeps
    (fun _ _ later => ⟨(Advances.of_store grows).trans later.1, later.2⟩) fun _ _ => id

end Keeps

section Parts

variable {named : String → List Ty → Building Ty} {sort : String → Building Unit}

theorem ownerOf_keeps (owner : Ty) : Keeps resolve names [] (ownerOf owner) world := by
  unfold ownerOf
  split
  · exact .pure _
  · exact .make (Making.keeps_newData _ _)

theorem findConstructor_keeps (bindings : Bindings) (name : String) (fields : List (Field Ty))
    (constructors : List (Constructor Ty)) :
    Keeps resolve names [] (findConstructor bindings name fields constructors) world := by
  induction constructors generalizing world with
  | nil => exact .pure _
  | cons constructor constructors ih =>
    refine (Keeps.make (Ty.instantiate_keeps _)).bind_last fun candidate after _ => ?_
    split
    · split
      · refine (Keeps.ask _).bind_last fun equal _ _ => ?_
        cases equal
        · exact ih
        · exact .pure _
      · exact ih
    · exact ih

theorem constructorOf_keeps (owner : DataRef Ty) (name : String) (fields : List (Field Ty)) :
    Keeps resolve names [] (constructorOf owner name fields) world := by
  refine .get_bind ((Keeps.ask _).bind_last fun constructors _ _ => ?_)
  refine (findConstructor_keeps _ _ _ _).bind_last fun found _ _ => ?_
  cases found with
  | some found => exact .pure _
  | none =>
    exact (Keeps.make (Making.keeps_newConstructor _ _ _ _)).bind_last fun _ _ _ => .pure _

theorem applied_keeps (declared : Ty) (actuals : List Ty) :
    Keeps resolve names [] (applied declared actuals) world := by
  unfold applied
  split
  · exact .pure _
  · refine (Keeps.ask _).bind_last fun equal _ _ => ?_
    split
    · exact .pure _
    · exact .make (Ty.instantiate_keeps _)

theorem compositional_keeps : Compositional fun {_} mentions building _ =>
    ∀ world, Keeps resolve names mentions building world where
  pure result _ := .pure result
  bind first second world := (first world).bind fun result after _ => second result after
  owner type _ := ownerOf_keeps type
  constructor owner name fields _ := constructorOf_keeps owner name fields
  alias_ keeps world := (keeps world).of_alias

theorem typesWith_keeps {symbols : List Symbol}
    (keeps : ∀ symbol ∈ symbols, ∀ world,
      Keeps resolve names symbol.mentions (typeWith named sort symbol) world) :
    Keeps resolve names (Symbol.mentionsOfAll symbols) (typesWith named sort symbols) world :=
  @Compositional.typesWith _ compositional_keeps named named sort sort symbols keeps world

theorem fieldsWith_keeps {symbols : List Symbol}
    (keeps : ∀ symbol ∈ symbols, ∀ world,
      Keeps resolve names symbol.mentions (typeWith named sort symbol) world) :
    Keeps resolve names (Symbol.mentionsOfAll symbols) (fieldsWith named sort symbols) world :=
  @Compositional.fieldsWith _ compositional_keeps named named sort sort symbols keeps world

/-- The type of a symbol is built from the types of the names in it. -/
theorem typeWith_keeps
    (sort_keeps : ∀ name world, Keeps resolve names [.sort name] (sort name) world)
    {symbol : Symbol} (named_keeps : ∀ name, symbol.Names name → ∀ actuals world,
      Keeps resolve names [.dataRef name] (named name actuals) world)
    (world : World) :
    Keeps resolve names symbol.mentions (typeWith named sort symbol) world :=
  @Compositional.typeWith _ compositional_keeps named named sort sort symbol named_keeps
    (fun name _ => sort_keeps name) world

end Parts

theorem sortWith_keeps (name : String) (world : World) :
    Keeps resolve names [.sort name] (sortWith resolve name) world := by
  unfold sortWith
  split
  · next first first_eq =>
    have rules_le : ∀ other rule, rule ∈ world.registry.rulesOf other →
        rule ∈ (world.registry.addRules name first.subject (resolve name).toList).rulesOf other :=
      fun _ _ mem => Registry.mem_rulesOf_addRules.mpr (.inr mem)
    refine Building.meets_register.mpr
      ⟨.of_lookup?_eq ⟨.refl _, fun _ _ => id, fun _ _ => id, rules_le⟩ fun _ => rfl,
        fun mention mem => ?_⟩
    obtain rfl := List.mem_singleton.mp mem
    exact fun rule rule_mem => Registry.mem_rulesOf_addRules.mpr (.inl ⟨rfl, rule_mem⟩)
  · next first_eq =>
    refine ⟨.refl _, fun mention mem => ?_⟩
    obtain rfl := List.mem_singleton.mp mem
    exact fun rule rule_mem => absurd rule_mem (OrderedSet.not_mem_of_first?_eq_none first_eq rule)

/-- A declared name whose declaration is a given one, or else one of some names which leads back to
itself. -/
def Claimed (resolve : Resolver) (world : World) (name : String) (type : Ty) : Prop :=
  world.registry.lookup? name = some type ∨
    world.registry.lookup? name ≠ none ∧ ReachesItself resolve name

theorem Claimed.declared {name : String} {type : Ty} (claimed : Claimed resolve world name type) :
    world.registry.lookup? name ≠ none := by
  rcases claimed with declared | ⟨declared, -⟩
  · simp [declared]
  · exact declared

theorem Claimed.of_extends {after : World} {name : String} {type : Ty}
    (claimed : Claimed resolve world name type) (extends_ : world.Extends after) :
    Claimed resolve after name type :=
  claimed.imp (extends_.lookup?_eq ·) fun ⟨declared, repeated⟩ =>
    ⟨extends_.declared declared, repeated⟩

/-- A name which is declared already is declared again without effect, or fails for a reason which
is allowed. -/
theorem declare_of_claimed {name : String} {type : Ty} (mem : names name)
    (claimed : Claimed resolve world name type) :
    world.registry.declare world.store name type = .ok world.registry ∨
      ∃ failure, world.registry.declare world.store name type = .error failure ∧
        Repeats resolve names failure := by
  rcases claimed with declared | ⟨declared, repeated⟩
  · exact .inl (Registry.declare_self declared)
  · obtain ⟨existing, declared⟩ := Option.ne_none_iff_exists'.mp declared
    rw [Registry.declare_of_declared declared]
    rcases world.store.same existing type with _ | _ | _
    · exact .inr ⟨_, rfl, .inl rfl⟩
    · exact .inr ⟨_, rfl, .inr ⟨name, _, _, mem, repeated, rfl⟩⟩
    · exact .inl rfl

theorem declareConstructor_keeps {constructor : Constructor Ty}
    (mem : names constructor.owner.name)
    (claimed : Claimed resolve world constructor.owner.name (.dataRef constructor.owner)) :
    Keeps resolve names [] (Building.register (·.declareConstructor · constructor)) world := by
  refine .of_advances (Building.meets_register.mpr ?_)
  rw [Registry.declareConstructor_eq]
  rcases declare_of_claimed mem claimed with declare_eq | ⟨failure, declare_eq, repeats⟩
  · rw [declare_eq]
    dsimp only
    rcases world.registry.constructorsOf world.store constructor.owner.name with _ | known
    · exact .inl rfl
    · dsimp only
      rcases Registry.isKnown world.store known constructor with _ | _ | _
      · exact .inl rfl
      · exact .of_lookup?_eq ⟨.refl _, fun _ _ => id,
          fun _ _ mem => Layer.mem_constructorsOf_append.mpr (.inl mem), fun _ _ => id⟩ fun _ => rfl
      · exact .refl _
  · rw [declare_eq]
    exact repeats

theorem declareConstructors_keeps {fieldsOf : List Symbol → Building (List (Field Ty))}
    {owner : DataRef Ty} {productions : List Production}
    (fields_keep : ∀ production ∈ productions, production.name.isSome = true → ∀ world,
      Keeps resolve names (Symbol.mentionsOfAll production.symbols) (fieldsOf production.symbols)
        world)
    (mem : names owner.name) (claimed : Claimed resolve world owner.name (.dataRef owner)) :
    Keeps resolve names
      (Symbol.mentionsOfAll ((productions.filter (·.name.isSome)).flatMap (·.symbols)))
      (declareConstructors fieldsOf owner productions) world := by
  induction productions generalizing world with
  | nil => exact .pure _
  | cons production productions ih =>
    obtain ⟨head_keeps, tail_keep⟩ := List.forall_mem_cons.mp fields_keep
    unfold declareConstructors
    split
    · next name name_eq =>
      have named : production.name.isSome = true := by simp [name_eq]
      rw [List.filter_cons_of_pos (by simp [name_eq]), List.flatMap_cons,
        Symbol.mentionsOfAll_append]
      refine (head_keeps named world).bind fun fields first advances => ?_
      have grows : first.store.Grows
          (first.store.makeConstructor owner name fields production.attributes).2 :=
        .makeConstructor owner name fields production.attributes
      refine .make_bind (Making.run_newConstructor _ _ _ _) grows ?_
      have first_claimed := (claimed.of_extends advances.toExtends).of_extends (.of_store grows)
      exact (declareConstructor_keeps mem first_claimed).bind fun _ second advances =>
        ih tail_keep (first_claimed.of_extends advances.toExtends)
    · next name_eq =>
      rw [List.filter_cons_of_neg (by simp [name_eq])]
      exact ih tail_keep claimed

/-- Declaring a name as a type which it does not have fails if it is declared already. -/
theorem declare_keeps (world : World) {name : String} (type : Ty) (mem : names name)
    (repeated : world.registry.lookup? name ≠ none → ReachesItself resolve name) :
    Building.Meets (Building.register (·.declare · name type)) world
      (fun _ after => world.Extends after ∧ after.store = world.store ∧
        Claimed resolve after name type ∧
        (world.registry.lookup? name = none → after.registry.lookup? name = some type) ∧
        ∀ other existing, after.registry.lookup? other = some existing → other ≠ name →
          world.registry.lookup? other = some existing)
      fun failure _ => Repeats resolve names failure := by
  refine Building.meets_register.mpr ?_
  by_cases undeclared : world.registry.lookup? name = none
  · rw [Registry.declare_of_undeclared undeclared]
    have lookup_eq : Registry.lookup? { world.registry with
        own := { world.registry.own with
          declarations := world.registry.own.declarations.insert name type } } name = some type := by
      simp [Registry.lookup?_insert]
    refine ⟨.declare undeclared, rfl, .inl lookup_eq, fun _ => lookup_eq,
      fun other existing declared distinct => ?_⟩
    simpa [Registry.lookup?_insert, distinct] using declared
  · have claimed : Claimed resolve world name type := .inr ⟨undeclared, repeated undeclared⟩
    rcases declare_of_claimed mem claimed with declare_eq | ⟨failure, declare_eq, repeats⟩
    · rw [declare_eq]
      exact ⟨.refl _, rfl, claimed, fun free => absurd free undeclared,
        fun _ _ declared _ => declared⟩
    · rw [declare_eq]
      exact repeats

section Declarations

variable {name : String} {formals : List Ty}

theorem declareData_keeps {fieldsOf : List Symbol → Building (List (Field Ty))}
    (fields_keep : ∀ production ∈ (resolve name).toList, production.name.isSome = true → ∀ world,
      Keeps resolve names (Symbol.mentionsOfAll production.symbols) (fieldsOf production.symbols)
        world)
    (mem : names name) (repeated : world.registry.lookup? name ≠ none → ReachesItself resolve name)
    (contents_eq : contentsOf resolve name =
      ((resolve name).toList.filter (·.name.isSome)).flatMap (·.symbols))
    (formals_covered : ∀ mention ∈ Symbol.mentionsOfAll (formalsOf resolve name),
      Covered resolve world mention) :
    Keeps resolve names [.dataRef name] (declareData fieldsOf name formals (resolve name)) world := by
  unfold declareData
  refine .make_bind (Making.run_newData name formals) (.makeData name formals) ?_
  have declared_meets := declare_keeps { world with store := (world.store.makeData name formals).2 }
    (.dataRef (world.store.makeData name formals).1) mem repeated
  refine Building.Meets.bind declared_meets ?_ fun _ _ => id
  rintro _ declared ⟨extends_, -, claimed, declared_eq, old⟩
  refine Building.Meets.bind (declareConstructors_keeps fields_keep mem claimed) ?_ fun _ _ => id
  rintro _ after ⟨advances, covered⟩
  have made_extends : world.Extends declared :=
    (World.Extends.of_store (.makeData name formals)).trans extends_
  refine ⟨.of_expanded mem extends_ old advances (fun mention mention_mem => ?_)
    (extends_.trans advances.toExtends).grows (fun _ => id) (fun undeclared type lookup_eq => ?_),
    List.forall_mem_singleton.mpr fun _ => advances.declared claimed.declared⟩
  · rw [mentionsOf, Symbol.mentionsOfAll_append, contents_eq] at mention_mem
    rcases List.mem_append.mp mention_mem with mention_mem | mention_mem
    · exact (formals_covered mention mention_mem).of_extends
        (made_extends.trans advances.toExtends)
    · exact covered mention mention_mem
  · rw [advances.lookup?_eq (declared_eq undeclared)] at lookup_eq
    obtain rfl := Option.some.inj lookup_eq
    trivial

theorem declareAlias_keeps {typeOf : Symbol → Building Ty}
    (body_keeps : ∀ symbol, bodySymbol? (resolve name) = some symbol → ∀ world,
      Keeps resolve names symbol.mentions (typeOf symbol) world)
    (mem : names name) (repeated : world.registry.lookup? name ≠ none → ReachesItself resolve name)
    (contents_eq : contentsOf resolve name = (bodySymbol? (resolve name)).toList)
    (formals_covered : ∀ mention ∈ Symbol.mentionsOfAll (formalsOf resolve name),
      Covered resolve world mention) :
    Keeps resolve names [.dataRef name] (declareAlias typeOf name formals (resolve name)) world := by
  rw [declareAlias_eq]
  refine Building.meets_bind.mpr (Building.meets_make.mpr ?_)
  rw [Making.run_newAlias]
  dsimp only [Store.makeAlias]
  refine Building.Meets.bind (declare_keeps ⟨_, world.registry⟩ _ mem repeated) ?_
    fun _ _ => id
  rintro _ pending ⟨pending_extends, store_eq, claimed, declared_eq, old⟩
  have body_of_keeps : Keeps resolve names (Symbol.mentionsOfAll (contentsOf resolve name))
      (bodyType typeOf (resolve name)) pending := by
    unfold bodyType
    rw [contents_eq]
    split
    · next symbol symbol_eq =>
      simpa [symbol_eq, Symbol.mentionsOfAll] using body_keeps symbol symbol_eq pending
    · next symbol_eq =>
      rw [symbol_eq]
      exact .pure _
  refine Building.Meets.bind body_of_keeps ?_ fun _ _ => id
  rintro body known ⟨advances, covered⟩
  -- The slot was made empty, and whatever the body led to has left it alone.
  have slot_eq : known.store.slots[world.store.slots.size]? = some none := by
    rw [advances.grows.slot_eq _ (by simp [store_eq]), store_eq]
    simp
  have made_extends : world.Extends pending :=
    (World.Extends.of_store (.makeAlias name formals none)).trans pending_extends
  refine Building.meets_bind.mpr (meets_fillSlot.mpr ?_)
  split
  · next filled fill_eq =>
    refine ⟨.of_expanded mem made_extends old advances (fun mention mention_mem => ?_)
      ((made_extends.trans advances.toExtends).grows.fill? le_rfl fill_eq)
      (fun type => Store.fills_of_fill? fill_eq) (fun undeclared type lookup_eq => ?_),
      List.forall_mem_singleton.mpr fun _ => advances.declared claimed.declared⟩
    · rw [mentionsOf, Symbol.mentionsOfAll_append] at mention_mem
      rcases List.mem_append.mp mention_mem with mention_mem | mention_mem
      · exact (formals_covered mention mention_mem).of_extends
          (made_extends.trans advances.toExtends)
      · exact covered mention mention_mem
    · rw [advances.lookup?_eq (declared_eq undeclared)] at lookup_eq
      obtain rfl := Option.some.inj lookup_eq
      simp [Store.Fills, Store.body?_of_fill? fill_eq]
  · next fill_eq => simp [Store.fill?, slot_eq] at fill_eq

end Declarations

theorem namedWith_keeps {expand : String → Symbol → Building Ty} {name : String}
    (expand_keeps : ∀ production, (resolve name).first? = some production → ∀ world : World,
      world.registry.lookup? name = none →
        Keeps resolve names [.dataRef name] (expand name production.subject) world)
    (actuals : List Ty) :
    Keeps resolve names [.dataRef name] (namedWith resolve expand name actuals) world := by
  have covered {building : Building Ty} (keeps : Keeps resolve names [] building world)
      (known : (resolve name).first? ≠ none → world.registry.lookup? name ≠ none) :
      Keeps resolve names [.dataRef name] building world :=
    Building.Meets.mono keeps (fun _ _ ⟨advances, _⟩ => ⟨advances,
      List.forall_mem_singleton.mpr fun some => advances.declared (known some)⟩) fun _ _ => id
  refine .get_bind ?_
  split
  · next declared lookup_eq => exact covered (applied_keeps _ _) (by simp [lookup_eq])
  · next undeclared =>
    split
    · next production first_eq =>
      exact (expand_keeps production first_eq world undeclared).bind_last
        fun _ _ _ => applied_keeps _ _
    · next first_eq =>
      refine covered ?_ (by simp [first_eq])
      exact (Keeps.make (Making.keeps_newData _ _)).bind_last fun _ _ _ => .pure _

/-- Expanding a name declares only what it leads to. -/
theorem expandWithin_keeps (depth : Nat) {name : String} {production : Production}
    (first_eq : (resolve name).first? = some production) {world : World}
    (undeclared : world.registry.lookup? name = none) :
    Keeps resolve (Relation.ReflTransGen (Leads resolve) name) [.dataRef name]
      (expandWithin resolve depth name production.subject) world := by
  induction depth generalizing name production world with
  | zero => exact .inl rfl
  | succ depth ih =>
    -- What stands in the alternatives is within what the name leads to.
    have part_keeps (symbol : Symbol) (world : World) :
        Keeps resolve (Reaches resolve symbol) symbol.mentions
          (typeWith (namedWith resolve (expandWithin resolve depth)) (sortWith resolve) symbol)
          world :=
      typeWith_keeps sortWith_keeps (fun other names actuals world =>
        (namedWith_keeps (fun _ first_eq _ undeclared => ih first_eq undeclared) actuals).mono
          fun _ path => ⟨other, names, path⟩) world
    have formals_keep : Keeps resolve
        (fun other => ∃ formal ∈ formalsOf resolve name, Reaches resolve formal other)
        (Symbol.mentionsOfAll (formalsOf resolve name))
        (typesWith (namedWith resolve (expandWithin resolve depth)) (sortWith resolve)
          (formalsOf resolve name)) world :=
      typesWith_keeps fun formal mem world =>
        (part_keeps formal world).mono fun _ reaches => ⟨formal, mem, reaches⟩
    have formals_le : ∀ other, (∃ formal ∈ formalsOf resolve name, Reaches resolve formal other) →
        Relation.ReflTransGen (Leads resolve) name other :=
      fun _ ⟨_, mem, reaches⟩ => Reaches.of_mem (List.mem_append_left _ mem) reaches
    have contents_keep : ∀ symbol ∈ contentsOf resolve name, ∀ world,
        Keeps resolve (Relation.ReflTransGen (Leads resolve) name) symbol.mentions
          (typeWith (namedWith resolve (expandWithin resolve depth)) (sortWith resolve) symbol)
          world := fun symbol mem world =>
      (part_keeps symbol world).mono fun _ => Reaches.of_mem (List.mem_append_right _ mem)
    have fields_keep (contents_eq : contentsOf resolve name =
          ((resolve name).toList.filter (·.name.isSome)).flatMap (·.symbols)) :
        ∀ production ∈ (resolve name).toList, production.name.isSome = true → ∀ world,
          Keeps resolve (Relation.ReflTransGen (Leads resolve) name)
            (Symbol.mentionsOfAll production.symbols)
            (fieldsWith (namedWith resolve (expandWithin resolve depth)) (sortWith resolve)
              production.symbols) world := fun production mem named world =>
      fieldsWith_keeps fun symbol symbol_mem => contents_keep symbol <| by
        rw [contents_eq]
        exact List.mem_flatMap.mpr ⟨production, List.mem_filter.mpr ⟨mem, named⟩, symbol_mem⟩
    have repeated {after : World} (advances : Advances resolve
        (fun other => ∃ formal ∈ formalsOf resolve name, Reaches resolve formal other) world after)
        (declared : after.registry.lookup? name ≠ none) : ReachesItself resolve name :=
      advances.names_of_new undeclared declared
    unfold expandWithin
    split
    · next parameters subject_eq =>
      have contents_eq := contentsOf_eq_of_alias first_eq subject_eq
      rw [← formalsOf_eq_of_alias first_eq subject_eq]
      refine (formals_keep.bind_of_le formals_le fun formals after advances covered => ?_).of_subset
        (List.subset_append_right _ _)
      refine declareAlias_keeps (fun symbol symbol_eq => contents_keep symbol ?_) .refl
        (repeated advances) contents_eq covered
      simp [contents_eq, symbol_eq]
    · next parameters subject_eq =>
      have contents_eq := contentsOf_eq_of_not_alias first_eq (by simp [subject_eq])
      rw [← formalsOf_eq_of_data first_eq subject_eq]
      refine (formals_keep.bind_of_le formals_le fun formals after advances covered => ?_).of_subset
        (List.subset_append_right _ _)
      exact declareData_keeps (fields_keep contents_eq) .refl (repeated advances) contents_eq
        covered
    · next no_alias no_data =>
      have contents_eq := contentsOf_eq_of_not_alias first_eq no_alias
      refine declareData_keeps (fields_keep contents_eq) .refl
        (fun declared => absurd undeclared declared) contents_eq ?_
      rw [formalsOf_eq_nil first_eq no_alias no_data]
      exact fun _ mem => nomatch mem

/-- Reconstructing a symbol covers its mentions and declares only what it reaches, and it fails only
because one of these names leads back to itself through its formal parameters. -/
theorem typeWithin_keeps (depth : Nat) (symbol : Symbol) (world : World) :
    Keeps resolve (Reaches resolve symbol) symbol.mentions (typeWithin resolve depth symbol)
      world :=
  typeWith_keeps sortWith_keeps (fun name names actuals _ =>
    (namedWith_keeps (fun _ first_eq _ undeclared => expandWithin_keeps depth first_eq undeclared)
      actuals).mono fun _ path => ⟨name, names, path⟩) world

end Reconstruct

end Reification
