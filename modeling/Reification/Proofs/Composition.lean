import Reification.Proofs.Sound

/-!
# Composed types

In a sound world the parts of a symbol are put together to a type which shows the tree that the
symbol means, provided that this holds of the names in it.
-/

namespace Reification

namespace Scope

variable {scope : Scope}

/-- What shows a tree has type parameters which show those of the tree. -/
theorem Denotes.parameters {type : Ty} {tree : Tree} (denotes : scope.Denotes type tree) :
    scope.DenoteAll type.parameters tree.parameters := by
  cases denotes with
  | dataRef _ denote | aliasRef _ _ _ denote => exact denote
  | leaf _ _ none => simpa [Ty.parameters, Tree.parameters, none] using DenoteAll.nil
  | _ => exact .nil

/-- What shows a tree has the name which the tree refers to. -/
theorem Denotes.name?_eq {type : Ty} {tree : Tree} (denotes : scope.Denotes type tree) :
    type.name? = tree.name? := by
  cases denotes <;> rfl

/-- What shows a tree is written in the same way. -/
theorem Denotes.display_eq {type : Ty} {tree : Tree} (denotes : scope.Denotes type tree) :
    type.display = tree.display := by
  have all {types : List Ty} {trees : List Tree} (known : List.Forall₂ (fun type tree =>
      ∃ _ : scope.Denotes type tree, type.display = tree.display) types trees) :
      Ty.displayAll types = Tree.displayAll trees := by
    induction known with
    | nil => rfl
    | cons head _ ih => rw [Ty.displayAll, Tree.displayAll, head.2, ih]
  have fields {fields : List (Field Ty)} {trees : List (Field Tree)}
      (known : List.Forall₂ (Field.Rel fun type tree => ∃ _ : scope.Denotes type tree,
        type.display = tree.display) fields trees) :
      Ty.displayFields fields = Tree.displayFields trees := by
    induction known with
    | nil => rfl
    | @cons field tree _ _ head _ ih =>
      obtain ⟨label, type⟩ := field
      obtain ⟨_, tree⟩ := tree
      obtain ⟨rfl, _, display_eq⟩ := head
      rw [Ty.displayFields, Tree.displayFields, display_eq, ih]
  induction denotes using Denotes.induction with
  | prim | sort => rfl
  | list _ _ _ ih | set _ _ _ ih | reified _ _ _ ih => simp [Ty.display, Tree.display, ih]
  | map _ _ _ _ _ _ ih_key ih_value => simp [Ty.display, Tree.display, ih_key, ih_value]
  | tuple _ _ _ ih => simp [Ty.display, Tree.display, fields ih]
  | func _ _ _ _ _ _ ih ih_arguments => simp [Ty.display, Tree.display, ih, fields ih_arguments]
  | parameter name bound tree denotes ih =>
    cases denotes with
    | prim primitive => cases primitive <;> rfl
    | _ => exact congrArg ("&" ++ name ++ " <: " ++ ·) ih
  | dataRef _ _ _ _ ih => simp [Ty.display, Tree.display, all ih]
  | leaf _ _ _ none => simp [Ty.display, Tree.display, none, Ty.displayAll, Tree.displayAll]
  | aliasRef _ _ _ _ _ _ _ _ _ ih => simp [Ty.display, Tree.display, all ih]
  | constructor _ _ _ _ _ _ ih ih_fields =>
    simp [Ty.display, Tree.display, all ih, fields ih_fields]

/-- What shows a constructor is one. -/
theorem Denotes.exists_constructor {type : Ty} {owner name : String} {parameters : List Tree}
    {fields : List (Field Tree)}
    (denotes : scope.Denotes type (.constructor owner parameters name fields)) :
    ∃ reference, type = .constructor reference ∧ reference.name = name ∧
      scope.DenoteFields reference.fields fields := by
  generalize tree_eq : Tree.constructor owner parameters name fields = tree at denotes
  cases denotes with
  | constructor _ _ denote_fields =>
    obtain ⟨rfl, rfl, rfl, rfl⟩ := Tree.constructor.inj tree_eq
    exact ⟨_, rfl, rfl, denote_fields⟩
  | _ => cases tree_eq

/-- Comparing two lists of types ends, and they are equal if they show the same trees. -/
theorem DenoteAll.sameAll_decides (agree : scope.LeavesAgree) {lefts rights : List Ty}
    {trees others : List Tree} (denote : scope.DenoteAll lefts trees)
    (denote' : scope.DenoteAll rights others) :
    Decides (scope.store.sameAll lefts rights) (trees = others) := by
  induction lefts generalizing rights trees others with
  | nil =>
    cases denote
    cases denote' <;> exact .of_some (by simp)
  | cons left lefts ih =>
    cases denote with
    | cons head tail =>
      cases denote' with
      | nil => exact .of_some (by simp)
      | cons head' tail' =>
        refine ((Decides.of_some beq_iff_eq).andThenSame fun _ =>
          (head.same_decides agree head').andThenSame fun _ => ih tail tail').congr ?_
        rw [tail.length_eq, tail'.length_eq, List.cons.injEq]
        exact ⟨fun equal => equal.2, fun equal => ⟨congrArg _ equal.2, equal⟩⟩

/-- Comparing two lists of fields ends, and they are equal if they show the same fields. -/
theorem DenoteFields.sameFields_decides (agree : scope.LeavesAgree) {lefts rights : List (Field Ty)}
    {trees others : List (Field Tree)} (denote : scope.DenoteFields lefts trees)
    (denote' : scope.DenoteFields rights others) :
    Decides (scope.store.sameFields lefts rights) (trees = others) :=
  ((Denotes.tuple denote).same_decides agree (.tuple denote')).congr (by simp)

/-- A declared type for some actual parameters shows the declaration for them. -/
theorem Denotes.applied_meets (agree : scope.LeavesAgree) {world : World}
    (store_eq : scope.store = world.store) {declared : Ty} {tree : Tree}
    (denotes : scope.Denotes declared tree) {actuals : List Ty} {trees : List Tree}
    (denote : scope.DenoteAll actuals trees) :
    (Reconstruct.applied declared actuals).Meets world
      (fun type after => ∃ wider, scope.GrowsTo wider ∧
        after = { world with store := wider.store } ∧ wider.Denotes type (tree.applied trees))
      fun _ _ => False := by
  have stays {type : Ty} {shown : Tree} (denotes : scope.Denotes type shown) :
      ∃ wider, scope.GrowsTo wider ∧ world = { world with store := wider.store } ∧
        wider.Denotes type shown :=
    ⟨scope, .refl scope, by rw [store_eq], denotes⟩
  unfold Reconstruct.applied
  split
  · next empty =>
    obtain rfl := List.isEmpty_iff.mp empty
    cases denote
    exact stays (by simpa [Tree.applied] using denotes)
  · next some_actual =>
    obtain ⟨answer, answer_eq, answer_iff⟩ := denote.sameAll_decides agree denotes.parameters
    rw [store_eq] at answer_eq
    refine Building.meets_bind.mpr (Building.meets_ask.mpr ?_)
    rw [answer_eq]
    dsimp only
    split
    · next equal =>
      refine stays ?_
      rw [Tree.applied, if_pos (.inr (answer_iff.mp equal))]
      exact denotes
    · next differ =>
      have trees_some : trees ≠ [] := by
        rintro rfl
        exact some_actual (List.isEmpty_iff.mpr (List.length_eq_zero_iff.mp denote.length_eq))
      rw [Tree.applied, if_neg (not_or.mpr ⟨trees_some, mt answer_iff.mpr differ⟩)]
      obtain ⟨result, after, run_eq, wider, growsTo, rfl, shown⟩ :=
        denotes.makes_instantiate (binds_ofParameters denotes.parameters denote)
      rw [store_eq] at run_eq
      refine Building.meets_make.mpr ?_
      rw [run_eq]
      exact ⟨wider, growsTo, rfl, shown⟩

end Scope

namespace Reconstruct.Stage

variable {stage : Stage} {world : World} {scope : Scope}

/-- A declared type shows the declaration for the actual parameters. -/
theorem applied_builds (sound : stage.Sound world scope) {declared : Ty} {tree : Tree}
    (denotes : scope.Denotes declared tree) {actuals : List Ty} {trees : List Tree}
    (denote : scope.DenoteAll actuals trees) :
    stage.Builds (applied declared actuals) world scope fun wider type =>
      wider.Denotes type (tree.applied trees) := by
  refine Building.Meets.mono (denotes.applied_meets sound.leavesAgree sound.store_eq denote) ?_
    fun _ _ => id
  rintro type after ⟨wider, growsTo, rfl, shown⟩
  exact ⟨.of_store (sound.store_eq ▸ growsTo.grows), wider, growsTo.toLe,
    sound.of_le growsTo.toLe growsTo.leaf_eq, shown⟩

/-- The owner of a constructor is the data type which the tree of the owner names. -/
theorem ownerOf_builds (sound : stage.Sound world scope) {owner : Ty} {tree : Tree}
    (denotes : scope.Denotes owner tree) :
    stage.Builds (ownerOf owner) world scope fun wider reference =>
      reference.name = tree.ownerName ∧
        wider.Denotes (.dataRef reference) (.dataRef tree.ownerName tree.parameters) := by
  have made_up : stage.Builds
      (Building.make (Making.newData (owner.name?.getD owner.display) owner.parameters)) world scope
      fun wider reference => reference.name = tree.ownerName ∧
        wider.Denotes (.dataRef reference) (.dataRef tree.ownerName tree.parameters) := by
    rw [denotes.name?_eq, denotes.display_eq]
    exact .make sound (Scope.makes_newData denotes.parameters tree.ownerName)
  cases owner with
  | dataRef reference =>
    cases denotes with
    | dataRef known denote => exact .pure sound ⟨rfl, .dataRef known denote⟩
  | _ => exact made_up

/-- A constructor which is found has the given name and fields, and its owner is the given one. -/
theorem findConstructor_builds (sound : stage.Sound world scope) {bindings : Bindings}
    {given : Tree.Substitution} (binds : scope.Binds bindings given) {ownerName name : String}
    {formals actuals : List Tree} (stable : formals.map (.subst given) = actuals)
    {fields : List (Field Ty)} {trees : List (Field Tree)}
    (denote : scope.DenoteFields fields trees) {constructors : List (Constructor Ty)}
    (denotes : ∀ constructor ∈ constructors, ∃ fieldTrees, scope.Denotes (.constructor constructor)
      (.constructor ownerName formals constructor.name fieldTrees)) :
    stage.Builds (findConstructor bindings name fields constructors) world scope
      fun wider found => ∀ type ∈ found,
        wider.Denotes type (.constructor ownerName actuals name trees) := by
  induction constructors generalizing world scope with
  | nil => exact .pure sound (by simp)
  | cons constructor constructors ih =>
    obtain ⟨⟨fieldTrees, head⟩, tail⟩ := List.forall_mem_cons.mp denotes
    refine (Builds.make sound (head.makes_instantiate binds)).bind ?_
    rintro candidate after wider - le sound' candidate_denotes
    have rest := ih sound' (binds.mono le) (denote.mono le)
      fun other mem => (tail other mem).imp fun _ denotes => denotes.mono le
    obtain ⟨candidateFields, tree_eq⟩ : ∃ candidateFields, Tree.subst given
        (.constructor ownerName formals constructor.name fieldTrees) =
          .constructor ownerName actuals constructor.name candidateFields := by
      cases formals with
      | nil => exact ⟨fieldTrees, by simp [Tree.subst, ← stable]⟩
      | cons formal formals =>
        exact ⟨_, by rw [Tree.subst_constructor _ (List.cons_ne_nil _ _), stable]⟩
    rw [tree_eq] at candidate_denotes
    obtain ⟨found, rfl, found_name, fields_denote⟩ := candidate_denotes.exists_constructor
    dsimp only
    split
    · next name_eq =>
      obtain ⟨answer, answer_eq, answer_iff⟩ :=
        fields_denote.sameFields_decides sound'.leavesAgree (denote.mono le)
      rw [sound'.store_eq] at answer_eq
      refine .ask_bind answer_eq ?_
      split
      · next equal =>
        obtain rfl := answer_iff.mp equal
        rw [← found_name, name_eq] at candidate_denotes
        exact .pure sound' (by simpa using candidate_denotes)
      · exact rest
    · exact rest

/-- A constructor in a declared data type or in one that is made up shows its owner and its fields. -/
theorem constructorOf_builds (sound : stage.Sound world scope) {owner : DataRef Ty}
    {actuals : List Tree} (denotes : scope.Denotes (.dataRef owner) (.dataRef owner.name actuals))
    (stable : ∀ formals, stage.meaning owner.name = some (.dataRef owner.name formals) →
      formals.map (.subst (.ofParameters formals actuals)) = actuals)
    {fields : List (Field Ty)} {trees : List (Field Tree)}
    (denote : scope.DenoteFields fields trees) (name : String) :
    stage.Builds (constructorOf owner name fields) world scope fun wider type =>
      wider.Denotes type (.constructor owner.name actuals name trees) := by
  have found_builds : stage.Builds (findConstructor (.ofParameters
      (((world.registry.lookupData? owner.name).map (·.parameters)).getD []) owner.parameters) name
      fields (world.registry.own.constructorsOf owner.name)) world scope fun wider found =>
        ∀ type ∈ found, wider.Denotes type (.constructor owner.name actuals name trees) := by
    rcases constructors_eq : world.registry.own.constructorsOf owner.name with _ | ⟨first, rest⟩
    · exact .pure sound (by simp)
    · rw [← constructors_eq]
      have first_mem : first ∈ world.registry.own.constructorsOf owner.name := by
        simp [constructors_eq]
      obtain ⟨declared, -⟩ := sound.constructs first_mem
      have data_eq : world.registry.lookupData? owner.name = some first.owner := by
        simp [Registry.lookupData?, declared]
      cases sound.declares declared with
      | data name_eq meaning_eq known formals_denote =>
        rw [data_eq]
        refine findConstructor_builds sound
          (Scope.binds_ofParameters formals_denote denotes.parameters) (stable _ meaning_eq) denote
          fun constructor mem => ?_
        obtain ⟨declared', known', production, -, matches_, -⟩ := sound.constructs mem
        obtain owner_eq : first.owner = constructor.owner := by simpa [declared] using declared'
        have constructor_denotes :=
          Scope.Denotes.constructor known' (owner_eq ▸ formals_denote) matches_.2
        rw [← owner_eq, name_eq] at constructor_denotes
        exact ⟨_, constructor_denotes⟩
  refine .get_bind (.ask_bind
    (Registry.constructorsOf_of_inherited_eq sound.inherited_eq _ _) (found_builds.bind ?_))
  rintro (_ | found) after wider - le sound' found_denotes
  · refine (Builds.make sound' (Scope.makes_newConstructor (denotes.mono le) (denote.mono le) name
      ∅)).bind ?_
    rintro constructor last widest - - sound'' ⟨-, constructor_denotes⟩
    exact .pure sound'' constructor_denotes
  · exact .pure sound' (found_denotes found rfl)

/-- The rules of a nonterminal are added to those which there are. -/
theorem sortWith_builds (sound : stage.Sound world scope) (name : String) :
    stage.Builds (sortWith stage.resolve name) world scope fun _ _ => True := by
  unfold sortWith
  split
  · refine Building.meets_register.mpr ⟨⟨.refl _, fun _ _ => id, fun _ _ => id, fun _ _ mem =>
      Registry.mem_rulesOf_addRules.mpr (.inr mem)⟩, scope, .refl scope, ?_, trivial⟩
    refine { sound with rules_le := fun mem => ?_ }
    rcases Registry.mem_rulesOf_addRules.mp mem with ⟨rfl, mem⟩ | mem
    · exact mem
    · exact sound.rules_le mem
  · exact .pure sound trivial

section Parts

variable {named : String → List Ty → Building Ty} {sort : String → Building Unit}
  {symbols : List Symbol}

theorem typesWith_builds (sound : stage.Sound world scope)
    (builds : ∀ symbol ∈ symbols, ∀ {world scope}, stage.Sound world scope →
      stage.Builds (typeWith named sort symbol) world scope fun wider type =>
        wider.Denotes type (symbol.tree stage.meaning)) :
    stage.Builds (typesWith named sort symbols) world scope fun wider types =>
      wider.DenoteAll types (Symbol.trees stage.meaning symbols) := by
  induction symbols generalizing world scope with
  | nil => exact .pure sound .nil
  | cons symbol symbols ih =>
    obtain ⟨head_builds, tail_builds⟩ := List.forall_mem_cons.mp builds
    refine (head_builds sound).bind fun type _ _ _ _ sound' denotes => ?_
    refine (ih sound' tail_builds).bind fun types _ _ _ le sound'' denote => ?_
    exact .pure sound'' (.cons (denotes.mono le) denote)

theorem fieldsWith_builds (sound : stage.Sound world scope)
    (builds : ∀ symbol ∈ symbols, ∀ {world scope}, stage.Sound world scope →
      stage.Builds (typeWith named sort symbol) world scope fun wider type =>
        wider.Denotes type (symbol.tree stage.meaning)) :
    stage.Builds (fieldsWith named sort symbols) world scope fun wider fields =>
      wider.DenoteFields fields (Symbol.fieldTrees stage.meaning symbols) := by
  induction symbols generalizing world scope with
  | nil => exact .pure sound .nil
  | cons symbol symbols ih =>
    obtain ⟨head_builds, tail_builds⟩ := List.forall_mem_cons.mp builds
    refine (head_builds sound).bind fun type _ _ _ _ sound' denotes => ?_
    refine (ih sound' tail_builds).bind fun types _ _ _ le sound'' denote => ?_
    exact .pure sound'' (.cons _ (denotes.mono le) denote)

end Parts

/-- The type of a symbol shows the tree of the symbol if this holds of the names in it. -/
theorem typeWith_builds {named : String → List Ty → Building Ty} {symbol : Symbol}
    (stable : ∀ owner ∈ symbol.owners, Stable stage.resolve stage.shapes owner)
    (named_builds : ∀ name, symbol.Names name → ∀ {world scope}, stage.Sound world scope →
      ∀ {actuals trees}, scope.DenoteAll actuals trees →
        stage.Builds (named name actuals) world scope fun wider type =>
          wider.Denotes type (stage.meaning.named name trees))
    {world : World} {scope : Scope} (sound : stage.Sound world scope) :
    stage.Builds (typeWith named (sortWith stage.resolve) symbol) world scope fun wider type =>
      wider.Denotes type (symbol.tree stage.meaning) := by
  induction symbol using Symbol.induction generalizing world scope with
  | prim primitive => exact .pure sound (.prim primitive)
  | label _ _ ih => exact ih stable named_builds sound
  | list _ ih =>
    exact (ih stable named_builds sound).bind fun _ _ _ _ _ sound' denotes =>
      .pure sound' (.list denotes)
  | set _ ih =>
    exact (ih stable named_builds sound).bind fun _ _ _ _ _ sound' denotes =>
      .pure sound' (.set denotes)
  | reified _ ih =>
    exact (ih stable named_builds sound).bind fun _ _ _ _ _ sound' denotes =>
      .pure sound' (.reified denotes)
  | parameter name _ ih =>
    exact (ih stable named_builds sound).bind fun _ _ _ _ _ sound' denotes =>
      .pure sound' (.parameter name denotes)
  | map _ _ ih_key ih_value =>
    simp only [Symbol.owners, List.forall_mem_append] at stable
    simp only [Symbol.names_map] at named_builds
    refine (ih_key stable.1 (fun _ names => named_builds _ (.inl names)) sound).bind
      fun _ _ _ _ _ sound' key_denotes => ?_
    refine (ih_value stable.2 (fun _ names => named_builds _ (.inr names)) sound').bind
      fun _ _ _ _ le sound'' denotes => ?_
    exact .pure sound'' (.map (key_denotes.mono le) denotes)
  | tuple fields ih =>
    simp only [Symbol.owners, Symbol.ownersOfAll_eq, List.forall_mem_flatMap] at stable
    simp only [Symbol.names_tuple] at named_builds
    refine (fieldsWith_builds sound fun field mem => ih field mem (stable field mem) fun _ names =>
      named_builds _ ⟨field, mem, names⟩).bind fun _ _ _ _ _ sound' denote => ?_
    exact .pure sound' (.tuple denote)
  | func result arguments ih ih_arguments =>
    simp only [Symbol.owners, Symbol.ownersOfAll_eq, List.forall_mem_append,
      List.forall_mem_flatMap] at stable
    simp only [Symbol.names_func] at named_builds
    refine (ih stable.1 (fun _ names => named_builds _ (.inl names)) sound).bind
      fun _ _ _ _ _ sound' denotes => ?_
    refine (fieldsWith_builds sound' fun field mem => ih_arguments field mem (stable.2 field mem)
      fun _ names => named_builds _ (.inr ⟨field, mem, names⟩)).bind
        fun _ _ _ _ le sound'' denote => ?_
    exact .pure sound'' (.func (denotes.mono le) denote)
  | dataRef name parameters ih =>
    simp only [Symbol.owners, Symbol.ownersOfAll_eq, List.forall_mem_flatMap] at stable
    simp only [Symbol.names_dataRef] at named_builds
    refine (typesWith_builds sound fun symbol mem => ih symbol mem (stable symbol mem)
      fun _ names => named_builds _ (.inr ⟨symbol, mem, names⟩)).bind
        fun _ _ _ _ _ sound' denote => ?_
    exact named_builds name (.inl rfl) sound' denote
  | aliasRef name parameters ih =>
    simp only [Symbol.owners, Symbol.ownersOfAll_eq, List.forall_mem_flatMap] at stable
    simp only [Symbol.names_aliasRef] at named_builds
    refine (typesWith_builds sound fun symbol mem => ih symbol mem (stable symbol mem)
      fun _ names => named_builds _ (.inr ⟨symbol, mem, names⟩)).bind
        fun _ _ _ _ _ sound' denote => ?_
    exact named_builds name (.inl rfl) sound' denote
  | constructor owner name fields ih ih_fields =>
    simp only [Symbol.owners, Symbol.ownersOfAll_eq, List.forall_mem_cons, List.forall_mem_append,
      List.forall_mem_flatMap] at stable
    obtain ⟨owner_stable, owners_stable, fields_stable⟩ := stable
    simp only [Symbol.names_constructor] at named_builds
    refine (ih owners_stable (fun _ names => named_builds _ (.inl names)) sound).bind
      fun _ _ _ _ _ sound' denotes => ?_
    refine (ownerOf_builds sound' denotes).bind fun owner _ _ _ _ sound'' owner_made => ?_
    obtain ⟨name_eq, owner_denotes⟩ := owner_made
    refine (fieldsWith_builds sound'' fun field mem => ih_fields field mem (fields_stable field mem)
      fun _ names => named_builds _ (.inr ⟨field, mem, names⟩)).bind
        fun _ _ _ _ le last_sound denote => ?_
    unfold Stable at owner_stable
    rw [← name_eq] at owner_denotes
    refine (constructorOf_builds last_sound (owner_denotes.mono le) ?_ denote name).mono
      fun _ _ _ constructor_denotes => ?_
    · rw [name_eq]
      exact owner_stable
    · rw [name_eq] at constructor_denotes
      exact constructor_denotes
  | sort name =>
    exact (sortWith_builds sound name).bind fun _ _ _ _ _ sound' _ => .pure sound' (.sort name)

end Reconstruct.Stage

end Reification
