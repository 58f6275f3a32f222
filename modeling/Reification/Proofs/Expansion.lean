import Reification.Proofs.Composition

/-!
# Expansion of names

Expanding a name in a sound world declares what the name stands for.  The name is declared before
its alternatives are gone through, and an alias with parameters is not met again in its own body,
so that whatever is met is known by then.  Each expansion declares a further name, so that nested
expansions end.
-/

namespace Reification

/-- Asking whether a constructor is known ends if all comparisons do. -/
theorem Registry.isKnown_decides {store : Store} {known : List (Constructor Ty)}
    {constructor : Constructor Ty} {question : Constructor Ty → Prop}
    (decides : ∀ other ∈ known,
      Decides (store.sameConstructor other constructor) (question other)) :
    Decides (isKnown store known constructor) (∃ other ∈ known, question other) := by
  induction known with
  | nil => exact .of_not rfl (by simp)
  | cons first rest ih =>
    obtain ⟨head_decides, tail_decides⟩ := List.forall_mem_cons.mp decides
    obtain ⟨_ | _, answer_eq, answer_iff⟩ := head_decides
    · refine (ih tail_decides).elim fun answer ⟨rest_eq, rest_iff⟩ => ⟨answer, ?_, ?_⟩
      · simpa [isKnown, List.anyM, answer_eq] using rest_eq
      · have first_differs : ¬question first := by simpa using answer_iff
        simp [rest_iff, first_differs]
    · refine .of_eq_true ?_ ⟨first, by simp, by simpa using answer_iff⟩
      simp [isKnown, List.anyM, answer_eq]

namespace Reconstruct.Stage

variable {stage : Stage} {world : World} {scope : Scope} {name : String}

/-- What a name is declared as shows what it stands for, unless it is an alias with parameters which
is being expanded. -/
theorem Sound.denotes (sound : stage.Sound world scope) {type : Ty}
    (declared : world.registry.lookup? name = some type)
    (ready : stage.expanding name → IsAlias stage.resolve name → stage.shapes.formals name = []) :
    ∃ tree, stage.meaning name = some tree ∧ scope.Denotes type tree := by
  cases sound.declares declared with
  | data name_eq meaning_eq known denote =>
    subst name_eq
    exact ⟨_, meaning_eq, .dataRef known denote⟩
  | @alias_ reference name_eq is_alias known denote body =>
    subst name_eq
    refine ⟨_, meaning_of_alias is_alias, ?_⟩
    split
    · next no_formal =>
      rw [no_formal] at denote ⊢
      have none : reference.parameters = [] := List.length_eq_zero_iff.mp denote.length_eq
      exact .leaf known (sound.leaf_iff.mpr declared) none
    · next some_formal =>
      have some_parameter : reference.parameters ≠ [] := fun none => some_formal <| by
        rw [none] at denote
        exact List.length_eq_zero_iff.mp denote.length_eq.symm
      have closed : ¬stage.expanding reference.name := fun expanding =>
        some_formal (ready expanding is_alias)
      obtain ⟨body, body_eq, denotes⟩ := body closed
      exact .aliasRef known some_parameter body_eq denote denotes

/-- One name fewer remains to be declared apart from one of those which remain. -/
theorem Sound.remaining_others (sound : stage.Sound world scope)
    (undeclared : world.registry.lookup? name = none)
    (some_alternative : (stage.resolve name).first? ≠ none) (idle : ¬stage.waiting name)
    {depth : Nat} (depth_le : stage.depth ≤ depth + 1) :
    ∃ names : Finset String, names.card ≤ depth ∧ ∀ other, other ≠ name →
      (stage.resolve other).first? ≠ none → world.registry.lookup? other = none →
        ¬stage.waiting other → other ∈ names := by
  obtain ⟨names, card_le, names_of_undeclared⟩ := sound.remaining
  have mem := names_of_undeclared name some_alternative undeclared idle
  refine ⟨names.erase name, ?_, fun other different some_alternative undeclared idle => ?_⟩
  · have card_eq := Finset.card_erase_add_one mem
    omega
  · exact Finset.mem_erase.mpr
      ⟨different, names_of_undeclared other some_alternative undeclared idle⟩

/-- A name may wait for its formal parameters. -/
theorem Sound.await (sound : stage.Sound world scope)
    (undeclared : world.registry.lookup? name = none)
    (some_alternative : (stage.resolve name).first? ≠ none) (idle : ¬stage.waiting name)
    {depth : Nat} (depth_le : stage.depth ≤ depth + 1) :
    (stage.awaiting name depth).Sound world scope where
  store_eq := sound.store_eq
  leaf_iff := sound.leaf_iff
  inherited_eq := sound.inherited_eq
  declares declared := by
    cases sound.declares declared with
    | data name_eq meaning_eq known denote => exact .data name_eq meaning_eq known denote
    | alias_ name_eq is_alias known denote body => exact .alias_ name_eq is_alias known denote body
  constructs := sound.constructs
  arranged := sound.arranged
  gone_eq := sound.gone_eq
  begun := sound.begun
  rules_le := sound.rules_le
  remaining := by
    obtain ⟨names, card_le, names_of_undeclared⟩ :=
      sound.remaining_others undeclared some_alternative idle depth_le
    refine ⟨names, card_le, fun other some_alternative undeclared idle => ?_⟩
    obtain ⟨idle, different⟩ := not_or.mp idle
    exact names_of_undeclared other different some_alternative undeclared idle

/-- A world is sound again when a name does not wait any more. -/
theorem Sound.resume {depth : Nat} (sound : (stage.awaiting name depth).Sound world scope)
    (depth_le : depth + 1 ≤ stage.depth) : stage.Sound world scope where
  store_eq := sound.store_eq
  leaf_iff := sound.leaf_iff
  inherited_eq := sound.inherited_eq
  declares declared := by
    cases sound.declares declared with
    | data name_eq meaning_eq known denote => exact .data name_eq meaning_eq known denote
    | alias_ name_eq is_alias known denote body => exact .alias_ name_eq is_alias known denote body
  constructs := sound.constructs
  arranged := sound.arranged
  gone_eq := sound.gone_eq
  begun := sound.begun
  rules_le := sound.rules_le
  remaining := by
    obtain ⟨names, card_le, names_of_undeclared⟩ := sound.remaining
    have card_le : names.card ≤ depth := card_le
    refine ⟨insert name names, ?_, fun other some_alternative undeclared idle => ?_⟩
    · have := Finset.card_insert_le name names
      omega
    · refine Finset.mem_insert.mpr (or_iff_not_imp_left.mpr fun different => ?_)
      exact names_of_undeclared other some_alternative undeclared (not_or.mpr ⟨idle, different⟩)

/-- A name which is declared is expanded from then on.  No alternatives of a data type have been
gone through by then. -/
theorem Sound.declare (sound : stage.Sound world scope)
    (undeclared : world.registry.lookup? name = none)
    (some_alternative : (stage.resolve name).first? ≠ none) (idle : ¬stage.waiting name)
    (gone : List Production) {depth : Nat} (depth_le : stage.depth ≤ depth + 1) {type : Ty}
    (declares : (stage.within name gone depth).Declares scope name type)
    (gone_eq : ∀ reference, type = .dataRef reference → gone = []) :
    ∃ wider, scope ≤ wider ∧ wider.store = scope.store ∧ (stage.within name gone depth).Sound
      { world with registry := { world.registry with
        own := { world.registry.own with
          declarations := world.registry.own.declarations.insert name type } } } wider := by
  have differs {other : String} {existing : Ty}
      (declared : world.registry.lookup? other = some existing) : other ≠ name := by
    rintro rfl
    simp [undeclared] at declared
  let registry := { world.registry with own := { world.registry.own with
    declarations := world.registry.own.declarations.insert name type } }
  have lookup_eq (other : String) : registry.lookup? other =
      if other = name then some type else world.registry.lookup? other :=
    Registry.lookup?_insert _
  let wider : Scope := { scope with
    Leaf := fun reference => registry.lookup? reference.name = some (.aliasRef reference) }
  have le : scope ≤ wider := ⟨id, fun _ leaf => by
    have declared := sound.leaf_iff.mp leaf
    change registry.lookup? _ = _
    rw [lookup_eq, if_neg (differs declared), declared], fun _ => id⟩
  refine ⟨wider, le, rfl, ?_⟩
  refine
    { store_eq := sound.store_eq
      leaf_iff := Iff.rfl
      inherited_eq := sound.inherited_eq
      declares := fun {other existing} declared => ?_
      constructs := fun {other constructor} mem => ?_
      arranged := fun {other reference} declared => ?_
      gone_eq := fun {other} closed => ?_
      begun := fun {other} expanding => ?_
      rules_le := sound.rules_le
      remaining := ?_ }
  · change registry.lookup? other = some existing at declared
    rw [lookup_eq] at declared
    split at declared
    · next same =>
      obtain rfl := Option.some.inj declared
      exact same ▸ declares.mono le
    · cases sound.declares declared with
      | data name_eq meaning_eq known denote =>
        exact .data name_eq meaning_eq known (denote.mono le)
      | alias_ name_eq is_alias known denote body =>
        refine .alias_ name_eq is_alias known (denote.mono le) fun closed => ?_
        obtain ⟨body, body_eq, denotes⟩ := body fun expanding => closed (.inl expanding)
        exact ⟨body, body_eq, denotes.mono le⟩
  · obtain ⟨declared, known, production, production_mem, matches_, attributes_eq⟩ :=
      sound.constructs mem
    refine ⟨?_, known, production, production_mem, matches_.mono le, attributes_eq⟩
    change registry.lookup? other = _
    rw [lookup_eq, if_neg (differs declared), declared]
  · change registry.lookup? other = _ at declared
    rw [lookup_eq] at declared
    split at declared
    · next same =>
      subst same
      have vacant : world.registry.own.constructorsOf other = [] :=
        List.eq_nil_iff_forall_not_mem.mpr fun _ mem => differs (sound.constructs mem).1 rfl
      change Arranged _ _ (distinct _ (Function.update stage.gone other gone other))
        (world.registry.own.constructorsOf other)
      rw [Function.update_self, gone_eq reference (Option.some.inj declared), vacant]
      exact .nil
    · next different =>
      change Arranged _ _ (distinct _ (Function.update stage.gone name gone other)) _
      rw [Function.update_of_ne different]
      exact (sound.arranged declared).mono le
  · obtain ⟨closed, different⟩ := not_or.mp closed
    exact (Function.update_of_ne different ..).trans (sound.gone_eq closed)
  · change registry.lookup? other ≠ none
    rw [lookup_eq]
    split
    · exact nofun
    · next different => exact sound.begun (expanding.resolve_right different)
  · obtain ⟨names, card_le, names_of_undeclared⟩ :=
      sound.remaining_others undeclared some_alternative idle depth_le
    refine ⟨names, card_le, fun other some_alternative undeclared idle => ?_⟩
    change registry.lookup? other = none at undeclared
    rw [lookup_eq] at undeclared
    split at undeclared
    · cases undeclared
    · next different =>
      exact names_of_undeclared other different some_alternative undeclared idle

/-- A world is sound again when all alternatives of a name have been gone through. -/
theorem Sound.finish {depth : Nat}
    (sound : (stage.within name (stage.resolve name).toList depth).Sound world scope)
    (gone_eq : stage.gone name = (stage.resolve name).toList) (depth_le : depth ≤ stage.depth)
    (body : ∀ reference, world.registry.lookup? name = some (.aliasRef reference) →
      ∃ body, scope.store.body? reference = some body ∧ scope.Denotes body (stage.shapes.body name)) :
    stage.Sound world scope := by
  have within_eq : (stage.within name (stage.resolve name).toList depth).gone = stage.gone := by
    rw [← gone_eq]
    exact Function.update_eq_self name stage.gone
  refine
    { store_eq := sound.store_eq
      leaf_iff := sound.leaf_iff
      inherited_eq := sound.inherited_eq
      declares := fun {other _} declared => ?_
      constructs := sound.constructs
      arranged := fun declared => within_eq ▸ sound.arranged declared
      gone_eq := fun {other} closed => ?_
      begun := fun expanding => sound.begun (.inl expanding)
      rules_le := sound.rules_le
      remaining := sound.remaining.imp fun _ ⟨card_le, mem⟩ => ⟨card_le.trans depth_le, mem⟩ }
  · cases sound.declares declared with
    | data name_eq meaning_eq known denote => exact .data name_eq meaning_eq known denote
    | alias_ name_eq is_alias known denote other_body =>
      refine .alias_ name_eq is_alias known denote fun closed => ?_
      by_cases same : other = name
      · subst same
        exact body _ declared
      · exact other_body (not_or.mpr ⟨closed, same⟩)
  · by_cases same : other = name
    · exact same ▸ gone_eq
    · exact within_eq ▸ sound.gone_eq (not_or.mpr ⟨closed, same⟩)

section Constructors

variable {gone more : List Production} {depth : Nat} {production : Production}
  {constructor : Constructor Ty}

/-- Going through further alternatives of a name changes nothing but its constructors. -/
theorem Sound.arrange (sound : (stage.within name gone depth).Sound world scope) {layer : Layer}
    (layer_eq : layer = { world.registry.own with constructors := layer.constructors })
    (others : ∀ other, other ≠ name →
      layer.constructorsOf other = world.registry.own.constructorsOf other)
    (constructs : ∀ constructor ∈ layer.constructorsOf name,
      world.registry.lookup? name = some (.dataRef constructor.owner) ∧
        scope.Known (.constructor constructor) ∧ ∃ production ∈ stage.resolve name,
          stage.Matches scope production constructor ∧
            production.attributes = constructor.attributes)
    (arranged : ∀ reference, world.registry.lookup? name = some (.dataRef reference) →
      stage.Arranged scope (distinct stage.meaning more) (layer.constructorsOf name)) :
    (stage.within name more depth).Sound
      { world with registry := { world.registry with own := layer } } scope := by
  obtain ⟨declarations, constructors, rules⟩ := layer
  obtain ⟨rfl, -, rfl⟩ := Layer.mk.inj layer_eq
  refine
    { store_eq := sound.store_eq
      leaf_iff := sound.leaf_iff
      inherited_eq := sound.inherited_eq
      declares := fun declared => ?_
      constructs := fun {other constructor} mem => ?_
      arranged := fun {other reference} declared => ?_
      gone_eq := fun {other} closed => ?_
      begun := sound.begun
      rules_le := sound.rules_le
      remaining := sound.remaining }
  · cases sound.declares declared with
    | data name_eq meaning_eq known denote => exact .data name_eq meaning_eq known denote
    | alias_ name_eq is_alias known denote body => exact .alias_ name_eq is_alias known denote body
  · by_cases same : other = name
    · subst same
      exact constructs constructor mem
    · exact sound.constructs (others other same ▸ mem)
  · by_cases same : other = name
    · subst same
      rw [gone_within_self]
      exact arranged reference declared
    · have before := sound.arranged declared
      rw [gone_within_of_ne same, ← others other same] at before
      rw [gone_within_of_ne same]
      exact before
  · have before := sound.gone_eq closed
    rw [gone_within_of_ne (not_or.mp closed).2] at before ⊢
    exact before

/-- An alternative without a constructor of its own may be gone through. -/
theorem Sound.pass (sound : (stage.within name gone depth).Sound world scope)
    (known : production.name = none ∨ ∃ other ∈ distinct stage.meaning gone,
      described stage.meaning other = described stage.meaning production) :
    (stage.within name (gone ++ [production]) depth).Sound world scope := by
  refine sound.arrange rfl (fun _ _ => rfl) (fun _ mem => sound.constructs mem)
    fun _ declared => ?_
  have before := sound.arranged declared
  rw [gone_within_self] at before
  rw [distinct_concat_of_known known]
  exact before

/-- A constructor may be added to its declared data type for an alternative which describes a
further one. -/
theorem Sound.addConstructor (sound : (stage.within name gone depth).Sound world scope)
    (declared : world.registry.lookup? name = some (.dataRef constructor.owner))
    (known : scope.Known (.constructor constructor)) (mem : production ∈ stage.resolve name)
    (matches_ : stage.Matches scope production constructor)
    (attributes_eq : production.attributes = constructor.attributes)
    (unknown : ∀ other ∈ distinct stage.meaning gone,
      described stage.meaning other ≠ described stage.meaning production) :
    (stage.within name (gone ++ [production]) depth).Sound { world with
      registry := { world.registry with own := { world.registry.own with
        constructors := world.registry.own.constructors.insert name
          (world.registry.own.constructorsOf name ++ [constructor]) } } } scope := by
  refine sound.arrange rfl (fun other different => ?_) (fun found found_mem => ?_)
    fun reference reference_eq => ?_
  · rw [Layer.constructorsOf_insert, if_neg different]
  · rcases Layer.mem_constructorsOf_append.mp found_mem with found_mem | ⟨-, rfl⟩
    · exact sound.constructs found_mem
    · exact ⟨declared, known, production, mem, matches_, attributes_eq⟩
  · have before := sound.arranged declared
    rw [gone_within_self] at before
    rw [Layer.constructorsOf_insert, if_pos rfl,
      distinct_concat_of_unknown (by simp [matches_.1]) unknown]
    exact List.rel_append before (.cons ⟨matches_, attributes_eq⟩ .nil)

/-- After a constructor has been declared, its alternative has been gone through. -/
theorem declareConstructor_meets
    (sound : (stage.within constructor.owner.name gone depth).Sound world scope)
    (declared : world.registry.lookup? constructor.owner.name = some (.dataRef constructor.owner))
    (known : scope.Known (.constructor constructor))
    (mem : production ∈ stage.resolve constructor.owner.name)
    (matches_ : stage.Matches scope production constructor)
    (attributes_eq : production.attributes = constructor.attributes) :
    (Building.register (·.declareConstructor · constructor)).Meets world
      (fun _ after => world.Extends after ∧
        (stage.within constructor.owner.name (gone ++ [production]) depth).Sound after scope)
      fun _ _ => False := by
  have owner_denote : scope.DenoteAll constructor.owner.parameters
      (stage.shapes.formals constructor.owner.name) := by
    cases sound.declares declared with
    | data _ _ _ denote => exact denote
  have arranged := sound.arranged declared
  rw [gone_within_self] at arranged
  have constructor_denotes := Scope.Denotes.constructor known owner_denote matches_.2
  -- The question is the same for all trees, since a type shows at most one.
  have known_decides : Decides (Registry.isKnown world.store
      (world.registry.own.constructorsOf constructor.owner.name) constructor)
      (∃ found ∈ world.registry.own.constructorsOf constructor.owner.name, ∃ tree,
        scope.Denotes (.constructor found) tree ∧ scope.Denotes (.constructor constructor) tree) :=
    Registry.isKnown_decides fun found found_mem => by
      obtain ⟨-, -, other, -, found_matches, -⟩ := sound.constructs found_mem
      have found_denotes := sound.constructor_denotes found_mem found_matches
      rw [Store.sameConstructor, ← sound.store_eq]
      refine (found_denotes.same_decides sound.leavesAgree constructor_denotes).congr
        ⟨fun equal => ⟨_, found_denotes, equal ▸ constructor_denotes⟩, ?_⟩
      rintro ⟨tree, shown, shown'⟩
      rw [found_denotes.unique shown, constructor_denotes.unique shown']
  obtain ⟨answer, answer_eq, answer_iff⟩ := known_decides
  refine Building.meets_register.mpr ?_
  rw [Registry.declareConstructor_eq, Registry.declare_self declared]
  dsimp only
  rw [Registry.constructorsOf_of_inherited_eq sound.inherited_eq]
  dsimp only
  rw [answer_eq]
  cases answer with
  | true =>
    obtain ⟨found, found_mem, tree, found_denotes, denotes⟩ := answer_iff.mp rfl
    obtain ⟨other, other_mem, other_matches, -⟩ := Scope.exists_of_forall₂ arranged.flip found_mem
    obtain rfl := constructor_denotes.unique denotes
    obtain ⟨reference, reference_eq, name_eq, denote⟩ := found_denotes.exists_constructor
    obtain rfl := Ty.constructor.inj reference_eq
    have found_matches : stage.Matches scope production found :=
      ⟨by rw [matches_.1, name_eq], denote⟩
    exact ⟨.refl _, sound.pass (.inr ⟨other, other_mem, other_matches.described_eq found_matches⟩)⟩
  | false =>
    refine ⟨⟨.refl _, fun _ _ => id, fun _ _ found_mem =>
      Layer.mem_constructorsOf_append.mpr (.inl found_mem), fun _ _ => id⟩,
      sound.addConstructor declared known mem matches_ attributes_eq fun other other_mem same => ?_⟩
    obtain ⟨found, found_mem, other_matches, -⟩ := Scope.exists_of_forall₂ arranged other_mem
    have found_matches := other_matches.of_described same
    have found_denotes := sound.constructor_denotes found_mem found_matches
    rw [Option.some.inj (found_matches.1.symm.trans matches_.1)] at found_denotes
    exact Bool.false_ne_true
      (answer_iff.mpr ⟨found, found_mem, _, found_denotes, constructor_denotes⟩)

/-- All alternatives of a data type which are left are gone through. -/
theorem declareConstructors_meets {fieldsOf : List Symbol → Building (List (Field Ty))}
    {owner : DataRef Ty} {productions : List Production}
    (fields_build : ∀ production ∈ productions, production.name.isSome = true →
      ∀ {gone world scope}, (stage.within owner.name gone depth).Sound world scope →
        (stage.within owner.name gone depth).Builds (fieldsOf production.symbols) world scope
          fun wider fields =>
            wider.DenoteFields fields (Symbol.fieldTrees stage.meaning production.symbols))
    (gone_eq : gone ++ productions = (stage.resolve owner.name).toList)
    (sound : (stage.within owner.name gone depth).Sound world scope)
    (declared : world.registry.lookup? owner.name = some (.dataRef owner)) :
    (declareConstructors fieldsOf owner productions).Meets world
      (fun _ after => world.Extends after ∧ ∃ wider, scope ≤ wider ∧
        (stage.within owner.name (stage.resolve owner.name).toList depth).Sound after wider)
      fun _ _ => False := by
  induction productions generalizing gone world scope with
  | nil =>
    rw [List.append_nil] at gone_eq
    exact ⟨.refl _, scope, .refl scope, gone_eq ▸ sound⟩
  | cons production productions ih =>
    obtain ⟨head_builds, tail_build⟩ := List.forall_mem_cons.mp fields_build
    have mem : production ∈ stage.resolve owner.name :=
      OrderedSet.mem_toList.mp (gone_eq ▸ by simp)
    rw [List.append_cons] at gone_eq
    unfold declareConstructors
    split
    · next name name_eq =>
      refine Building.Meets.bind (head_builds (by simp [name_eq]) sound) ?_ fun _ _ => id
      rintro fields first ⟨extends_, wider, le, first_sound, denote⟩
      have first_declared := extends_.lookup?_eq declared
      cases first_sound.declares first_declared with
      | data _ _ owner_known owner_denote =>
      refine Building.Meets.bind (Builds.make first_sound (Scope.makes_newConstructor
        (.dataRef owner_known owner_denote) denote name production.attributes)) ?_ fun _ _ => id
      rintro _ second ⟨made, widest, le', second_sound, ⟨object, rfl⟩, denotes⟩
      cases denotes with
      | constructor known _ fields_denote =>
      refine Building.Meets.bind (declareConstructor_meets second_sound
        (made.lookup?_eq first_declared) known mem ⟨name_eq, fields_denote⟩ rfl) ?_ fun _ _ => id
      rintro _ third ⟨added, third_sound⟩
      refine Building.Meets.mono (ih tail_build gone_eq third_sound
        (added.lookup?_eq (made.lookup?_eq first_declared))) ?_ fun _ _ => id
      rintro _ last ⟨later, last_scope, last_le, last_sound⟩
      exact ⟨((extends_.trans made).trans added).trans later, last_scope,
        Scope.Le.trans (Scope.Le.trans le le') last_le, last_sound⟩
    · next name_eq => exact ih tail_build gone_eq (sound.pass (.inl name_eq)) declared

end Constructors

section Declarations

variable {formals : List Ty} {depth : Nat}

/-- A data type is declared with all its constructors. -/
theorem declareData_builds {fieldsOf : List Symbol → Building (List (Field Ty))}
    (sound : stage.Sound world scope) (undeclared : world.registry.lookup? name = none)
    (some_alternative : (stage.resolve name).first? ≠ none) (idle : ¬stage.waiting name)
    (no_alias : ¬IsAlias stage.resolve name) (depth_eq : stage.depth = depth + 1)
    (denote : scope.DenoteAll formals (stage.shapes.formals name))
    (fields_build : ∀ production ∈ (stage.resolve name).toList, production.name.isSome = true →
      ∀ {gone world scope}, (stage.within name gone depth).Sound world scope →
        (stage.within name gone depth).Builds (fieldsOf production.symbols) world scope
          fun wider fields =>
            wider.DenoteFields fields (Symbol.fieldTrees stage.meaning production.symbols)) :
    stage.Builds (declareData fieldsOf name formals (stage.resolve name)) world scope
      fun wider type => ∃ tree, stage.meaning name = some tree ∧ wider.Denotes type tree := by
  have meaning_eq : stage.meaning name = some (.dataRef name (stage.shapes.formals name)) :=
    meaning_of_data (by simpa [subjectOf?] using some_alternative) no_alias
  refine .make_bind sound (Scope.makes_newData denote name) ?_
  rintro declared first growsTo ⟨rfl, denotes⟩
  have made_sound := sound.of_le growsTo.toLe growsTo.leaf_eq
  cases denotes with
  | dataRef known declared_denote =>
  obtain ⟨second, le, store_eq, declared_sound⟩ := made_sound.declare undeclared some_alternative
    idle [] depth_eq.le (.data rfl meaning_eq known declared_denote) fun _ _ => rfl
  refine Building.meets_bind.mpr (Building.meets_register.mpr ?_)
  rw [Registry.declare_of_undeclared undeclared]
  dsimp only
  refine Building.Meets.bind (declareConstructors_meets fields_build rfl declared_sound
    (by simp [Registry.lookup?_insert])) ?_ fun _ _ => id
  rintro _ after ⟨extends_, last, last_le, last_sound⟩
  have declared_eq : after.registry.lookup? declared.name = some (.dataRef declared) :=
    extends_.lookup?_eq (by simp [Registry.lookup?_insert])
  have finished : stage.Sound after last :=
    last_sound.finish (sound.unbegun undeclared) (by omega)
      fun reference alias_eq => by simp [declared_eq] at alias_eq
  have made : world.Extends { world with store := first.store } :=
    .of_store (sound.store_eq ▸ growsTo.grows)
  have grown : World.Extends { world with store := first.store } after :=
    .trans (.declare undeclared) extends_
  exact ⟨made.trans grown, last, Scope.Le.trans growsTo.toLe (Scope.Le.trans le last_le), finished,
    finished.denotes declared_eq fun _ is_alias => absurd is_alias no_alias⟩

/-- An alias is declared before its body is built and filled in. -/
theorem declareAlias_builds {typeOf : Symbol → Building Ty}
    (sound : stage.Sound world scope) (undeclared : world.registry.lookup? name = none)
    (is_alias : IsAlias stage.resolve name) (idle : ¬stage.waiting name)
    (solves : stage.shapes.body name = bodyTree stage.resolve stage.shapes name)
    (depth_eq : stage.depth = depth + 1)
    (ready : stage.expanding name → IsAlias stage.resolve name → stage.shapes.formals name = [])
    (denote : scope.DenoteAll formals (stage.shapes.formals name))
    (body_builds : ∀ symbol, bodySymbol? (stage.resolve name) = some symbol →
      ∀ {gone world scope}, (stage.within name gone depth).Sound world scope →
        (stage.within name gone depth).Builds (typeOf symbol) world scope fun wider type =>
          wider.Denotes type (symbol.tree stage.meaning)) :
    stage.Builds (declareAlias typeOf name formals (stage.resolve name)) world scope
      fun wider type => ∃ tree, stage.meaning name = some tree ∧ wider.Denotes type tree := by
  have some_alternative := first?_of_isAlias is_alias
  have body_builds {gone : List Production} {world : World} {scope : Scope}
      (sound : (stage.within name gone depth).Sound world scope) :
      (stage.within name gone depth).Builds (bodyType typeOf (stage.resolve name)) world scope
        fun wider type => wider.Denotes type (stage.shapes.body name) := by
    rw [solves, bodyTree, bodyType]
    rcases symbol_eq : bodySymbol? (stage.resolve name) with _ | symbol
    · exact .pure sound (.prim _)
    · exact body_builds symbol symbol_eq sound
  rw [declareAlias_eq]
  refine .make_bind sound (Scope.makes_newPending denote name) ?_
  rintro declared first growsTo ⟨rfl, fresh, known, declared_denote, slot_eq⟩
  have made_sound := sound.of_le growsTo.toLe growsTo.leaf_eq
  obtain ⟨second, le, store_eq, declared_sound⟩ := made_sound.declare undeclared some_alternative
    idle (stage.resolve declared.name).toList depth_eq.le
    (.alias_ rfl is_alias known declared_denote fun pending => absurd (.inr rfl) pending) nofun
  refine Building.meets_bind.mpr (Building.meets_register.mpr ?_)
  rw [Registry.declare_of_undeclared undeclared]
  dsimp only
  refine Building.Meets.bind (body_builds declared_sound) ?_ fun _ _ => id
  rintro body after ⟨extends_, third, third_le, third_sound, denotes⟩
  have grown : World.Extends { world with store := first.store } after :=
    .trans (.declare undeclared) extends_
  have declared_eq : after.registry.lookup? declared.name = some (.aliasRef declared) :=
    extends_.lookup?_eq (by simp [Registry.lookup?_insert])
  -- The slot was made empty, and whatever the body led to has left it alone.
  have pending : after.store.slots[declared.object]? = some none :=
    (grown.grows.slot_eq _ (Array.getElem?_eq_some_iff.mp slot_eq).1).trans slot_eq
  obtain ⟨filled, fill_eq⟩ : ∃ filled, after.store.fill? declared body = some filled := by
    simp [Store.fill?, pending]
  obtain ⟨last, last_le, leaf_eq, rfl⟩ :=
    third.exists_fill (third_sound.store_eq ▸ fill_eq) denotes.holds
  have finished : stage.Sound { after with store := last.store } last := by
    refine (third_sound.of_le last_le leaf_eq).finish (sound.unbegun undeclared) (by omega)
      fun reference alias_eq => ?_
    obtain rfl : declared = reference := by simpa [declared_eq] using alias_eq
    refine ⟨body, ?_, denotes.mono last_le⟩
    rw [Store.body?_of_fill? fill_eq, if_pos rfl]
  refine Building.meets_bind.mpr (meets_fillSlot.mpr ?_)
  rw [fill_eq]
  have made : world.Extends { world with store := first.store } :=
    .of_store (sound.store_eq ▸ growsTo.grows)
  have extended := made.trans grown
  refine ⟨{ extended with grows := extended.grows.fill? (sound.store_eq ▸ fresh) fill_eq }, last,
    Scope.Le.trans growsTo.toLe (Scope.Le.trans le (Scope.Le.trans third_le last_le)), finished,
    finished.denotes declared_eq ready⟩

/-- A name is declared as what it stands for once its formal parameters have been built. -/
theorem declareFor_builds {rest : Nat} (sound : stage.Sound world scope)
    (undeclared : world.registry.lookup? name = none)
    (some_alternative : (stage.resolve name).first? ≠ none) (idle : ¬stage.waiting name)
    (solves : Solves stage.resolve stage.shapes name) (depth_eq : stage.depth = rest + 1)
    (ready : stage.expanding name → IsAlias stage.resolve name → stage.shapes.formals name = [])
    (denote : scope.DenoteAll formals (stage.shapes.formals name))
    (contents_build : ∀ symbol ∈ contentsOf stage.resolve name,
      ∀ {gone world scope}, (stage.within name gone rest).Sound world scope →
        (stage.within name gone rest).Builds (typeWithin stage.resolve depth symbol) world scope
          fun wider type => wider.Denotes type (symbol.tree stage.meaning)) :
    stage.Builds (declareFor stage.resolve depth name formals) world scope
      fun wider type => ∃ tree, stage.meaning name = some tree ∧ wider.Denotes type tree := by
  unfold declareFor
  split
  · next other parameters alias_eq =>
    have is_alias : IsAlias stage.resolve name := ⟨other, parameters, alias_eq⟩
    exact declareAlias_builds sound undeclared is_alias idle (solves.body_eq is_alias) depth_eq ready
      denote fun symbol symbol_eq => contents_build symbol (mem_contentsOf_of_body alias_eq symbol_eq)
  · next no_alias =>
    refine declareData_builds sound undeclared some_alternative idle
      (fun ⟨other, parameters, alias_eq⟩ => no_alias other parameters alias_eq) depth_eq denote
      fun production mem named {_ _ _} sound => fieldsWith_builds sound fun symbol symbol_mem => ?_
    exact contents_build symbol (mem_contentsOf_of_field no_alias mem named symbol_mem)

end Declarations

/-- A name with actual parameters shows what it stands for with them. -/
theorem namedWith_builds {expand : String → Symbol → Building Ty}
    (sound : stage.Sound world scope)
    (ready : stage.expanding name → IsAlias stage.resolve name → stage.shapes.formals name = [])
    (expand_builds : ∀ production, (stage.resolve name).first? = some production →
      world.registry.lookup? name = none →
        stage.Builds (expand name production.subject) world scope fun wider type =>
          ∃ tree, stage.meaning name = some tree ∧ wider.Denotes type tree)
    {actuals : List Ty} {trees : List Tree} (denote : scope.DenoteAll actuals trees) :
    stage.Builds (namedWith stage.resolve expand name actuals) world scope fun wider type =>
      wider.Denotes type (stage.meaning.named name trees) := by
  refine .get_bind ?_
  split
  · next declared declared_eq =>
    obtain ⟨tree, meaning_eq, denotes⟩ := sound.denotes declared_eq ready
    simpa [Meaning.named, meaning_eq] using applied_builds sound denotes denote
  · next undeclared =>
    split
    · next production first_eq =>
      refine (expand_builds production first_eq undeclared).bind ?_
      rintro declared after wider - le after_sound ⟨tree, meaning_eq, denotes⟩
      simpa [Meaning.named, meaning_eq] using applied_builds after_sound denotes (denote.mono le)
    · next first_eq =>
      have meaning_eq : stage.meaning name = none := meaning_eq_none first_eq
      refine (Builds.make sound (Scope.makes_newData denote name)).bind ?_
      rintro reference after wider - - after_sound ⟨-, denotes⟩
      exact .pure after_sound (by simpa [Meaning.named, meaning_eq] using denotes)

/-- Whether a name may be expanded: it reaches neither a name which waits nor an alias with parameters
which is being expanded. -/
def Admits (stage : Stage) (name : String) : Prop :=
  ∀ other, Relation.ReflTransGen (Leads stage.resolve) name other → ¬stage.waiting other ∧
    (stage.expanding other → IsAlias stage.resolve other → stage.shapes.formals other = [])

namespace Admits

variable {part : Symbol} {other : String} {depth : Nat} (admits : stage.Admits name)
  (regular : Regular stage.resolve stage.shapes name)

include admits regular

/-- A name which waits is not met in its formal parameters. -/
theorem awaiting (mem : part ∈ formalsOf stage.resolve name) (names : part.Names other) :
    (stage.awaiting name depth).Admits other := by
  intro last path
  obtain ⟨idle, ready⟩ := admits last (.head ⟨part, List.mem_append_left _ mem, names⟩ path)
  refine ⟨not_or.mpr ⟨idle, ?_⟩, ready⟩
  rintro rfl
  exact regular.direct ⟨part, mem, other, names, path⟩

/-- An alias with parameters is not met within its own body. -/
theorem within {gone : List Production} (mem : part ∈ contentsOf stage.resolve name)
    (names : part.Names other) : (stage.within name gone depth).Admits other := by
  intro last path
  obtain ⟨idle, ready⟩ := admits last (.head ⟨part, List.mem_append_right _ mem, names⟩ path)
  refine ⟨idle, fun expanding is_alias => ?_⟩
  rcases expanding with expanding | rfl
  · exact ready expanding is_alias
  · by_contra some_formal
    refine regular.acyclic is_alias (fun none_eq => some_formal ?_) part mem ⟨other, names, path⟩
    exact (regular.solves.formals_eq (first?_of_isAlias is_alias)).trans
      (by rw [formalTrees, none_eq, List.map_nil])

end Admits

/-- The type of a symbol shows what the symbol means if the names in it can be expanded. -/
theorem typeWithin_builds_of_expand {depth : Nat} {symbol : Symbol}
    (sound : stage.Sound world scope)
    (stable : ∀ owner ∈ symbol.owners, Stable stage.resolve stage.shapes owner)
    (admits : ∀ name, symbol.Names name → stage.Admits name)
    (expand_builds : ∀ name, symbol.Names name → ∀ {world scope}, stage.Sound world scope →
      ∀ production, (stage.resolve name).first? = some production →
        world.registry.lookup? name = none →
          stage.Builds (expandWithin stage.resolve depth name production.subject) world scope
            fun wider type => ∃ tree, stage.meaning name = some tree ∧ wider.Denotes type tree) :
    stage.Builds (typeWithin stage.resolve depth symbol) world scope fun wider type =>
      wider.Denotes type (symbol.tree stage.meaning) :=
  typeWith_builds stable (fun name names {_ _} sound {_ _} denote => namedWith_builds sound
    (admits name names name .refl).2 (expand_builds name names sound) denote) sound

/-- The formal parameters of a name are built while the name waits, which they do not declare. -/
theorem formals_meet {depth rest : Nat} (sound : stage.Sound world scope)
    (regular : Regular stage.resolve stage.shapes name)
    (undeclared : world.registry.lookup? name = none)
    (some_alternative : (stage.resolve name).first? ≠ none) (idle : ¬stage.waiting name)
    (depth_eq : stage.depth = rest + 1)
    (formal_builds : ∀ formal ∈ formalsOf stage.resolve name, ∀ {world scope},
      (stage.awaiting name rest).Sound world scope →
        (stage.awaiting name rest).Builds (typeWithin stage.resolve depth formal) world scope
          fun wider type => wider.Denotes type (formal.tree stage.meaning)) :
    (typesWithin stage.resolve depth (formalsOf stage.resolve name)).Meets world
      (fun types after => world.Extends after ∧ after.registry.lookup? name = none ∧
        ∃ wider, scope ≤ wider ∧ stage.Sound after wider ∧
          wider.DenoteAll types (stage.shapes.formals name)) fun _ _ => False := by
  have builds := typesWith_builds (sound.await undeclared some_alternative idle depth_eq.le)
    formal_builds
  have keeps : Keeps stage.resolve
      (fun other => ∃ formal ∈ formalsOf stage.resolve name, Reaches stage.resolve formal other)
      _ (typesWithin stage.resolve depth (formalsOf stage.resolve name)) world :=
    typesWith_keeps fun formal mem world =>
      (typeWithin_keeps depth formal world).mono fun _ reaches => ⟨formal, mem, reaches⟩
  refine (builds.and keeps).mono ?_ fun _ _ failed => failed.1
  rintro types after ⟨⟨extends_, wider, le, after_sound, denote⟩, advances, -⟩
  refine ⟨extends_, ?_, wider, le, after_sound.resume depth_eq.ge, ?_⟩
  · by_contra declared
    exact regular.direct (advances.names_of_new undeclared declared)
  · rw [Symbol.trees_eq] at denote
    rw [regular.solves.formals_eq some_alternative]
    exact denote

/-- Expanding a name declares what it stands for. -/
theorem expandWithin_builds (depth : Nat) {stage : Stage} {world : World} {scope : Scope}
    {name : String} (depth_le : stage.depth ≤ depth) (sound : stage.Sound world scope)
    (regular : ∀ other, Relation.ReflTransGen (Leads stage.resolve) name other →
      Regular stage.resolve stage.shapes other)
    (admits : stage.Admits name) {production : Production}
    (first_eq : (stage.resolve name).first? = some production)
    (undeclared : world.registry.lookup? name = none) :
    stage.Builds (expandWithin stage.resolve depth name production.subject) world scope
      fun wider type => ∃ tree, stage.meaning name = some tree ∧ wider.Denotes type tree := by
  induction depth generalizing stage world scope name production with
  | zero =>
    obtain ⟨names, card_le, names_of_undeclared⟩ := sound.remaining
    have mem := names_of_undeclared name (by simp [first_eq]) undeclared (admits name .refl).1
    have := Finset.card_pos.mpr ⟨name, mem⟩
    omega
  | succ depth ih =>
    have some_alternative : (stage.resolve name).first? ≠ none := by simp [first_eq]
    have name_regular := regular name .refl
    obtain ⟨idle, ready⟩ := admits name .refl
    obtain ⟨rest, depth_eq⟩ : ∃ rest, stage.depth = rest + 1 := by
      obtain ⟨names, card_le, names_of_undeclared⟩ := sound.remaining
      have := Finset.card_pos.mpr ⟨name, names_of_undeclared name some_alternative undeclared idle⟩
      exact ⟨stage.depth - 1, by omega⟩
    have rest_le : rest ≤ depth := by omega
    have part_regular {part : Symbol} {other : String}
        (mem : part ∈ formalsOf stage.resolve name ++ contentsOf stage.resolve name)
        (names : part.Names other) : ∀ last, Relation.ReflTransGen (Leads stage.resolve) other last →
          Regular stage.resolve stage.shapes last :=
      fun last path => regular last (.head ⟨part, mem, names⟩ path)
    rw [Reconstruct.expandWithin_eq first_eq]
    refine Building.Meets.bind (formals_meet sound name_regular undeclared some_alternative idle
      depth_eq fun formal mem {_ _} sound => ?_) ?_ fun _ _ => id
    · have mem_parts := List.mem_append_left (contentsOf stage.resolve name) mem
      refine typeWithin_builds_of_expand sound (name_regular.stable formal mem_parts)
        (fun other names => admits.awaiting name_regular mem names)
        fun other names {_ _} sound production first_eq undeclared => ?_
      exact ih rest_le sound (part_regular mem_parts names)
        (admits.awaiting name_regular mem names) first_eq undeclared
    · rintro formals after ⟨extends_, undeclared, wider, le, after_sound, denote⟩
      refine Building.Meets.mono (declareFor_builds after_sound undeclared some_alternative idle
        name_regular.solves depth_eq ready denote fun content mem {_ _ _} sound => ?_) ?_
        fun _ _ => id
      · have mem_parts := List.mem_append_right (formalsOf stage.resolve name) mem
        refine typeWithin_builds_of_expand sound (name_regular.stable content mem_parts)
          (fun other names => admits.within name_regular mem names)
          fun other names {_ _} sound production first_eq undeclared => ?_
        exact ih rest_le sound (part_regular mem_parts names)
          (admits.within name_regular mem names) first_eq undeclared
      · rintro type last ⟨later, widest, le', last_sound, denotes⟩
        exact ⟨extends_.trans later, widest, Scope.Le.trans le le', last_sound, denotes⟩

/-- The type of a symbol shows the tree which the symbol means. -/
theorem typeWithin_builds {depth : Nat} {symbol : Symbol} (depth_le : stage.depth ≤ depth)
    (sound : stage.Sound world scope)
    (regular : ∀ other, Reaches stage.resolve symbol other →
      Regular stage.resolve stage.shapes other)
    (admits : ∀ name, symbol.Names name → stage.Admits name)
    (stable : ∀ owner ∈ symbol.owners, Stable stage.resolve stage.shapes owner) :
    stage.Builds (typeWithin stage.resolve depth symbol) world scope fun wider type =>
      wider.Denotes type (symbol.tree stage.meaning) :=
  typeWithin_builds_of_expand sound stable admits fun name names {_ _} sound _ =>
    expandWithin_builds depth depth_le sound (fun other path => regular other ⟨name, names, path⟩)
      (admits name names)

end Reconstruct.Stage

end Reification
