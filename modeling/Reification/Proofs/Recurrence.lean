import Reification.Proofs.Formals
import Reification.Proofs.Leaves
import Reification.Proofs.Repetition

/-!
# Recurrent trees

A tree recurs if its symbol means it again.  What a symbol means recurs if the names in the symbol
stand for coherent declarations and stand again for the same, except that data types may have become
opaque, and if the data types which are made up as owners of constructors are found again.  Of formal
parameters only those of opaque data types have to recur when others are replaced in them.
-/

namespace Reification

namespace Symbol

mutual

/-- The type parameters in a symbol with their bounds. -/
def typeParameters : Symbol → List (String × Symbol)
  | prim _ | sort _ => []
  | label _ inner => inner.typeParameters
  | list element => element.typeParameters
  | set element => element.typeParameters
  | map key value => key.typeParameters ++ value.typeParameters
  | tuple fields => typeParametersOfAll fields
  | func result arguments => result.typeParameters ++ typeParametersOfAll arguments
  | reified inner => inner.typeParameters
  | parameter name bound => (name, bound) :: bound.typeParameters
  | dataRef _ parameters => typeParametersOfAll parameters
  | aliasRef _ parameters => typeParametersOfAll parameters
  | constructor owner _ fields => owner.typeParameters ++ typeParametersOfAll fields

/-- The type parameters in some symbols with their bounds. -/
def typeParametersOfAll : List Symbol → List (String × Symbol)
  | [] => []
  | symbol :: symbols => symbol.typeParameters ++ typeParametersOfAll symbols

end

@[simp]
theorem typeParametersOfAll_eq (symbols : List Symbol) :
    typeParametersOfAll symbols = symbols.flatMap typeParameters := by
  induction symbols with
  | nil => rfl
  | cons symbol symbols ih => simp [typeParametersOfAll, ih]

end Symbol

/-- Whether a symbol refers to a data type or to an alias, apart from labels. -/
def Symbol.IsReference : Symbol → Prop
  | dataRef _ _ | aliasRef _ _ => True
  | label _ inner => inner.IsReference
  | _ => False

theorem Symbol.IsReference.exists_named {symbol : Symbol} (is_reference : symbol.IsReference)
    (meaning : Meaning) : ∃ name actuals, symbol.Names name ∧
      symbol.tree meaning = meaning.named name actuals := by
  induction symbol using Symbol.induction with
  | label _ _ ih => exact ih is_reference
  | dataRef name parameters => exact ⟨name, _, names_dataRef.mpr (.inl rfl), rfl⟩
  | aliasRef name parameters => exact ⟨name, _, names_aliasRef.mpr (.inl rfl), rfl⟩
  | _ => exact is_reference.elim

theorem Symbol.parameters_eq_nil {symbol : Symbol} (no_reference : ¬symbol.IsReference)
    (meaning : Meaning) : (symbol.tree meaning).parameters = [] := by
  induction symbol using Symbol.induction with
  | label _ _ ih => exact ih no_reference
  | dataRef | aliasRef => exact absurd trivial no_reference
  | _ => rfl

theorem Symbol.names_of_mem_owners {symbol owner : Symbol} {name : String}
    (mem : owner ∈ symbol.owners) (names : owner.Names name) : symbol.Names name := by
  obtain ⟨mention, mention_mem, declared⟩ := names
  exact ⟨mention, Symbol.mem_mentions_of_mem_owners mem mention_mem, declared⟩

/-- Whether a claim holds of every tree without names whose parts it holds of. -/
structure Tree.Composes (P : Tree → Prop) : Prop where
  prim : ∀ primitive, P (.prim primitive)
  list : ∀ {element}, P element → P (.list element)
  set : ∀ {element}, P element → P (.set element)
  map : ∀ {key value}, P key → P value → P (.map key value)
  tuple : ∀ {fields : List (Field Tree)}, (∀ field ∈ fields, P field.type) → P (.tuple fields)
  func : ∀ {result} {arguments : List (Field Tree)}, P result → (∀ field ∈ arguments, P field.type) →
    P (.func result arguments)
  reified : ∀ {inner}, P inner → P (.reified inner)

/-- Whether a claim holds of what the names, the type parameters, the constructors and the nonterminals
in a symbol mean as soon as it holds of the parts. -/
structure Symbol.Supports (meaning : Meaning) (P : Tree → Prop) (symbol : Symbol) : Prop where
  parameter : ∀ found ∈ symbol.typeParameters, P (found.2.tree meaning) →
    P (.parameter found.1 (found.2.tree meaning))
  named : ∀ name, symbol.Names name → ∀ actuals, (∀ actual ∈ actuals, P actual) →
    P (meaning.named name actuals)
  constructor : ∀ owner ∈ symbol.owners, ∀ name (fields : List (Field Tree)),
    P (owner.tree meaning) → (∀ field ∈ fields, P field.type) →
    P (.constructor (owner.tree meaning).ownerName (owner.tree meaning).parameters name fields)
  sort : ∀ name, .sort name ∈ symbol.mentions → P (.sort name)

section Composes

variable {meaning : Meaning} {P : Tree → Prop} {symbol part : Symbol}

theorem Symbol.Supports.mono (supports : symbol.Supports meaning P)
    (parameters_le : part.typeParameters ⊆ symbol.typeParameters)
    (owners_le : part.owners ⊆ symbol.owners) (mentions_le : part.mentions ⊆ symbol.mentions) :
    part.Supports meaning P where
  parameter found mem := supports.parameter found (parameters_le mem)
  named name := fun ⟨mention, mem, declared⟩ =>
    supports.named name ⟨mention, mentions_le mem, declared⟩
  constructor owner mem := supports.constructor owner (owners_le mem)
  sort name mem := supports.sort name (mentions_le mem)

/-- What a symbol means fulfils a claim which holds of everything that is composed of what it holds
of. -/
theorem Symbol.Supports.tree (supports : symbol.Supports meaning P) (composes : Tree.Composes P) :
    P (symbol.tree meaning) := by
  have all {symbols : List Symbol} {part : Symbol} (mem : part ∈ symbols) :
      part.typeParameters ⊆ typeParametersOfAll symbols ∧ part.owners ⊆ ownersOfAll symbols ∧
        part.mentions ⊆ mentionsOfAll symbols := by
    simp only [typeParametersOfAll_eq, ownersOfAll_eq, mentionsOfAll_eq]
    exact ⟨fun _ found => List.mem_flatMap.mpr ⟨part, mem, found⟩,
      fun _ found => List.mem_flatMap.mpr ⟨part, mem, found⟩,
      fun _ found => List.mem_flatMap.mpr ⟨part, mem, found⟩⟩
  have fields {symbols : List Symbol} (ih : ∀ part ∈ symbols, P (part.tree meaning)) :
      ∀ field ∈ fieldTrees meaning symbols, P field.type := by
    rw [fieldTrees_eq, List.forall_mem_map]
    exact ih
  have actuals {symbols : List Symbol} (ih : ∀ part ∈ symbols, P (part.tree meaning)) :
      ∀ actual ∈ trees meaning symbols, P actual := by
    rw [trees_eq, List.forall_mem_map]
    exact ih
  induction symbol using Symbol.induction with
  | prim primitive => exact composes.prim primitive
  | label _ _ ih => exact ih ⟨supports.1, supports.2, supports.3, supports.4⟩
  | list _ ih => exact composes.list (ih ⟨supports.1, supports.2, supports.3, supports.4⟩)
  | set _ ih => exact composes.set (ih ⟨supports.1, supports.2, supports.3, supports.4⟩)
  | reified _ ih => exact composes.reified (ih ⟨supports.1, supports.2, supports.3, supports.4⟩)
  | map _ _ ih_key ih_value =>
    exact composes.map
      (ih_key (supports.mono (List.subset_append_left ..) (List.subset_append_left ..)
        (List.subset_append_left ..)))
      (ih_value (supports.mono (List.subset_append_right ..) (List.subset_append_right ..)
        (List.subset_append_right ..)))
  | tuple _ ih =>
    refine composes.tuple (fields fun part mem => ih part mem ?_)
    exact supports.mono (all mem).1 (all mem).2.1 (all mem).2.2
  | func _ _ ih ih_arguments =>
    refine composes.func (ih (supports.mono (List.subset_append_left ..)
      (List.subset_append_left ..) (List.subset_append_left ..)))
      (fields fun part mem => ih_arguments part mem ?_)
    exact supports.mono (List.subset_append_of_subset_right _ (all mem).1)
      (List.subset_append_of_subset_right _ (all mem).2.1)
      (List.subset_append_of_subset_right _ (all mem).2.2)
  | parameter name bound ih =>
    refine supports.parameter (name, bound) (List.mem_cons_self ..) (ih ?_)
    exact supports.mono (List.subset_cons_self ..) (List.Subset.refl _) (List.Subset.refl _)
  | dataRef name parameters ih =>
    refine supports.named name (names_dataRef.mpr (.inl rfl)) _ (actuals fun part mem =>
      ih part mem ?_)
    exact supports.mono (all mem).1 (all mem).2.1
      (List.subset_append_of_subset_left _ (all mem).2.2)
  | aliasRef name parameters ih =>
    refine supports.named name (names_aliasRef.mpr (.inl rfl)) _ (actuals fun part mem =>
      ih part mem ?_)
    exact supports.mono (all mem).1 (all mem).2.1
      (List.subset_append_of_subset_left _ (all mem).2.2)
  | constructor owner name parameters ih ih_fields =>
    refine supports.constructor owner (List.mem_cons_self ..) name _ (ih ?_)
      (fields fun part mem => ih_fields part mem ?_)
    · exact supports.mono (List.subset_append_left ..)
        (List.subset_cons_of_subset _ (List.subset_append_left ..)) (List.subset_append_left ..)
    · exact supports.mono (List.subset_append_of_subset_right _ (all mem).1)
        (List.subset_cons_of_subset _ (List.subset_append_of_subset_right _ (all mem).2.1))
        (List.subset_append_of_subset_right _ (all mem).2.2)
  | sort name => exact supports.sort name (List.mem_singleton_self _)

/-- Whether a claim holds of a tree, also if type parameters in it are replaced by what it holds of. -/
def Tree.Spreads (P : Tree → Prop) (tree : Tree) : Prop :=
  P tree ∧ ∀ given : Tree.Substitution, (∀ name actual, given name = some actual → P actual) →
    P (tree.subst given)

theorem Tree.Composes.spreads (composes : Tree.Composes P) :
    Tree.Composes (Tree.Spreads P) where
  prim primitive := ⟨composes.prim primitive, fun _ _ => composes.prim primitive⟩
  list := fun ⟨holds, spreads⟩ => ⟨composes.list holds, fun given known =>
    composes.list (spreads given known)⟩
  set := fun ⟨holds, spreads⟩ => ⟨composes.set holds, fun given known =>
    composes.set (spreads given known)⟩
  map := fun ⟨key_holds, key_spreads⟩ ⟨value_holds, value_spreads⟩ =>
    ⟨composes.map key_holds value_holds, fun given known =>
      composes.map (key_spreads given known) (value_spreads given known)⟩
  tuple fields := by
    refine ⟨composes.tuple fun field mem => (fields field mem).1, fun given known => ?_⟩
    rw [subst, substFields_eq]
    exact composes.tuple (List.forall_mem_map.mpr fun field mem => (fields field mem).2 given known)
  func := fun ⟨holds, spreads⟩ fields => by
    refine ⟨composes.func holds fun field mem => (fields field mem).1, fun given known => ?_⟩
    rw [subst, substFields_eq]
    exact composes.func (spreads given known)
      (List.forall_mem_map.mpr fun field mem => (fields field mem).2 given known)
  reified := fun ⟨holds, spreads⟩ => ⟨composes.reified holds, fun given known =>
    composes.reified (spreads given known)⟩

/-- What a symbol without names means spreads a claim. -/
theorem Symbol.Supports.spreads (supports : symbol.Supports meaning P)
    (composes : Tree.Composes P) (plain : ∀ other, ¬symbol.Names other) :
    (symbol.tree meaning).Spreads P := by
  have supports : symbol.Supports meaning (Tree.Spreads P) :=
    { parameter := fun found mem ⟨holds, _⟩ => by
        refine ⟨supports.parameter found mem holds, fun given known => ?_⟩
        rw [Tree.subst]
        cases given_eq : given found.1 with
        | none => exact supports.parameter found mem holds
        | some actual => exact known _ _ given_eq
      named := fun name names => absurd names (plain name)
      constructor := fun owner mem name fields ⟨owner_holds, _⟩ fields_hold => by
        have no_reference : ¬owner.IsReference := fun is_reference => by
          obtain ⟨other, -, names, -⟩ := is_reference.exists_named meaning
          exact plain other (Symbol.names_of_mem_owners mem names)
        have holds := supports.constructor owner mem name fields owner_holds
          fun field field_mem => (fields_hold field field_mem).1
        rw [Symbol.parameters_eq_nil no_reference] at holds ⊢
        exact ⟨holds, fun _ _ => holds⟩
      sort := fun name mem => ⟨supports.sort name mem, fun _ _ => supports.sort name mem⟩ }
  exact supports.tree composes.spreads

/-- A declaration which spreads a claim fulfils it for actual parameters which do. -/
theorem Tree.Spreads.applied {declared : Tree} (spreads : declared.Spreads P) {actuals : List Tree}
    (known : ∀ actual ∈ actuals, P actual) : P (declared.applied actuals) := by
  unfold Tree.applied
  split
  · exact spreads.1
  · exact spreads.2 _ fun _ actual given_eq =>
      known actual ((mem_of_foldl_bind given_eq).resolve_left (by simp))

/-- The parameters of a declaration for actual ones fulfil a claim which the formal ones spread. -/
theorem Tree.IsReference.parameters_applied {declared : Tree} (is_reference : declared.IsReference)
    (spread : ∀ formal ∈ declared.parameters, formal.Spreads P) {actuals : List Tree}
    (known : ∀ actual ∈ actuals, P actual) :
    ∀ parameter ∈ (declared.applied actuals).parameters, P parameter := by
  unfold Tree.applied
  split
  · exact fun formal mem => (spread formal mem).1
  · rw [is_reference.parameters_subst, List.forall_mem_map]
    exact fun formal mem => (spread formal mem).2 _ fun _ actual given_eq =>
      known actual ((mem_of_foldl_bind given_eq).resolve_left (by simp))

/-- What is given to type parameters by the parameters of a result fulfils a claim which the formal and
the actual parameters fulfil. -/
theorem Tree.IsReference.of_mem_zip_parameters {declared actual : Tree}
    (is_reference : declared.IsReference) (formals_hold : ∀ formal ∈ declared.parameters, P formal)
    {actuals : List Tree} (actuals_hold : ∀ actual ∈ actuals, P actual) {name : String}
    {bound : Tree} (mem : (parameter name bound, actual) ∈
      declared.parameters.zip (declared.applied actuals).parameters) : P actual := by
  unfold Tree.applied at mem
  split at mem
  · exact formals_hold actual (List.of_mem_zip mem).2
  · rw [is_reference.parameters_subst, ← List.map_prod_left_eq_zip] at mem
    obtain ⟨formal, formal_mem, pair_eq⟩ := List.mem_map.mp mem
    obtain ⟨rfl, rfl⟩ := Prod.mk.inj pair_eq
    rw [subst]
    cases given_eq : Substitution.ofParameters declared.parameters actuals name with
    | none => exact formals_hold _ formal_mem
    | some given =>
      exact actuals_hold given ((mem_of_foldl_bind given_eq).resolve_left (by simp))

end Composes

namespace Tree

variable {P : Tree → Prop} {tree part : Tree} {name : String} {mention : Mention}

theorem mem_mentions_symbols {trees : List Tree} :
    mention ∈ Symbol.mentionsOfAll (symbols trees) ↔
      ∃ tree ∈ trees, mention ∈ tree.symbol.mentions := by
  rw [Symbol.mentionsOfAll_eq, symbols_eq, List.flatMap_map, List.mem_flatMap]

theorem mem_mentions_fields {fields : List (Field Tree)} :
    mention ∈ Symbol.mentionsOfAll (symbolsOfFields fields) ↔
      ∃ field ∈ fields, mention ∈ field.type.symbol.mentions := by
  simp only [Symbol.mentionsOfAll_eq, symbolsOfFields_eq, List.flatMap_map, List.mem_flatMap,
    Field.map, Field.mentions_symbol]

theorem mem_owners_symbols {trees : List Tree} {owner : Symbol} :
    owner ∈ Symbol.ownersOfAll (symbols trees) ↔ ∃ tree ∈ trees, owner ∈ tree.symbol.owners := by
  rw [Symbol.ownersOfAll_eq, symbols_eq, List.flatMap_map, List.mem_flatMap]

theorem mem_owners_fields {fields : List (Field Tree)} {owner : Symbol} :
    owner ∈ Symbol.ownersOfAll (symbolsOfFields fields) ↔
      ∃ field ∈ fields, owner ∈ field.type.symbol.owners := by
  simp only [Symbol.ownersOfAll_eq, symbolsOfFields_eq, List.flatMap_map, List.mem_flatMap,
    Field.map, Field.owners_symbol]

/-- A reference mentions what its parameters mention, and its name. -/
theorem IsReference.mem_mentions (is_reference : tree.IsReference) (name_eq : tree.name? = some name)
    (mem : mention ∈ tree.symbol.mentions) :
    (∃ parameter ∈ tree.parameters, mention ∈ parameter.symbol.mentions) ∨
      mention.declared? = some name := by
  cases is_reference with
  | dataRef other parameters | aliasRef other parameters =>
    obtain rfl : other = name := Option.some.inj name_eq
    rcases List.mem_append.mp mem with mem | mem
    · exact .inl (mem_mentions_symbols.mp mem)
    · obtain rfl := List.mem_singleton.mp mem
      exact .inr rfl

theorem IsReference.names (is_reference : tree.IsReference) (name_eq : tree.name? = some name) :
    tree.symbol.Names name := by
  cases is_reference with
  | dataRef => exact Symbol.names_dataRef.mpr (.inl (Option.some.inj name_eq))
  | aliasRef => exact Symbol.names_aliasRef.mpr (.inl (Option.some.inj name_eq))

/-- The owner of a constructor is a data type with the names of the reference which it was. -/
theorem IsReference.names_owner (is_reference : tree.IsReference) (names : tree.symbol.Names name) :
    (Symbol.dataRef tree.ownerName (symbols tree.parameters)).Names name := by
  cases is_reference with
  | dataRef => exact names
  | aliasRef => exact Symbol.names_dataRef.mpr (Symbol.names_aliasRef.mp names)

theorem mem_mentions_of_parameters (mem : part ∈ tree.parameters)
    (mention_mem : mention ∈ part.symbol.mentions) : mention ∈ tree.symbol.mentions := by
  cases tree with
  | dataRef | aliasRef =>
    exact List.mem_append_left _ (mem_mentions_symbols.mpr ⟨part, mem, mention_mem⟩)
  | _ => cases mem

theorem names_of_parameters (mem : part ∈ tree.parameters) (names : part.symbol.Names name) :
    tree.symbol.Names name := by
  obtain ⟨mention, mention_mem, declared⟩ := names
  exact ⟨mention, mem_mentions_of_parameters mem mention_mem, declared⟩

theorem names_of_fields {fields : List (Field Tree)} {field : Field Tree} (mem : field ∈ fields)
    (names : field.type.symbol.Names name) : ∃ mention ∈ Symbol.mentionsOfAll (symbolsOfFields fields),
      mention.declared? = some name := by
  obtain ⟨mention, mention_mem, declared⟩ := names
  exact ⟨mention, mem_mentions_fields.mpr ⟨field, mem, mention_mem⟩, declared⟩

/-- Constructors in the symbol of a tree belong to data types. -/
theorem exists_of_mem_owners {owner : Symbol} (mem : owner ∈ tree.symbol.owners) :
    ∃ data parameters, owner = .dataRef data parameters := by
  have all {trees : List Tree} (ih : ∀ tree ∈ trees, owner ∈ tree.symbol.owners →
      ∃ data parameters, owner = .dataRef data parameters)
      (mem : owner ∈ Symbol.ownersOfAll (symbols trees)) :
      ∃ data parameters, owner = .dataRef data parameters := by
    obtain ⟨tree, tree_mem, mem⟩ := mem_owners_symbols.mp mem
    exact ih tree tree_mem mem
  have fields {fields : List (Field Tree)} (ih : ∀ field ∈ fields,
      owner ∈ field.type.symbol.owners → ∃ data parameters, owner = .dataRef data parameters)
      (mem : owner ∈ Symbol.ownersOfAll (symbolsOfFields fields)) :
      ∃ data parameters, owner = .dataRef data parameters := by
    obtain ⟨field, field_mem, mem⟩ := mem_owners_fields.mp mem
    exact ih field field_mem mem
  induction tree using Tree.induction with
  | prim | sort => cases mem
  | list _ ih | set _ ih | reified _ ih | parameter _ _ ih => exact ih mem
  | map _ _ ih_key ih_value => exact (List.mem_append.mp mem).elim ih_key ih_value
  | tuple _ ih => exact fields ih mem
  | func _ _ ih ih_arguments => exact (List.mem_append.mp mem).elim ih (fields ih_arguments)
  | dataRef _ _ ih | aliasRef _ _ _ ih => exact all ih mem
  | constructor name parameters _ _ ih ih_fields =>
    rcases List.mem_cons.mp mem with rfl | mem
    · exact ⟨name, symbols parameters, rfl⟩
    · exact (List.mem_append.mp mem).elim (all ih) (fields ih_fields)

/-- A claim which is composed is still composed if it depends on the names in the trees. -/
theorem Composes.of_names (composes : Composes P) (Q : String → Prop) :
    Composes fun tree => (∀ name, tree.symbol.Names name → Q name) → P tree where
  prim primitive _ := composes.prim primitive
  list holds names := composes.list (holds names)
  set holds names := composes.set (holds names)
  reified holds names := composes.reified (holds names)
  map key_holds value_holds names := composes.map
    (key_holds fun name key_names => names name (Symbol.names_map.mpr (.inl key_names)))
    (value_holds fun name value_names => names name (Symbol.names_map.mpr (.inr value_names)))
  tuple holds names := composes.tuple fun field mem => holds field mem
    fun name ⟨mention, mention_mem, declared⟩ =>
      names name ⟨mention, mem_mentions_fields.mpr ⟨field, mem, mention_mem⟩, declared⟩
  func holds arguments_hold names := composes.func
    (holds fun name ⟨mention, mention_mem, declared⟩ =>
      names name ⟨mention, List.mem_append_left _ mention_mem, declared⟩)
    fun field mem => arguments_hold field mem fun name ⟨mention, mention_mem, declared⟩ =>
      names name ⟨mention, List.mem_append_right _
        (mem_mentions_fields.mpr ⟨field, mem, mention_mem⟩), declared⟩

end Tree

section Mentions

variable {meaning : Meaning} {allowed : Mention → Prop} {symbol : Symbol}

/-- Whether the symbol of a tree mentions only what is allowed. -/
def Tree.MentionsOnly (allowed : Mention → Prop) (tree : Tree) : Prop :=
  ∀ mention ∈ tree.symbol.mentions, allowed mention

namespace Tree

variable {tree : Tree} {given : Substitution}

theorem mentionsOnly_symbols {trees : List Tree} :
    (∀ mention ∈ Symbol.mentionsOfAll (symbols trees), allowed mention) ↔
      ∀ tree ∈ trees, tree.MentionsOnly allowed := by
  simp only [mem_mentions_symbols, forall_exists_index, and_imp]
  exact ⟨fun only tree mem mention => only mention tree mem,
    fun only mention tree mem => only tree mem mention⟩

theorem mentionsOnly_fields {fields : List (Field Tree)} :
    (∀ mention ∈ Symbol.mentionsOfAll (symbolsOfFields fields), allowed mention) ↔
      ∀ field ∈ fields, field.type.MentionsOnly allowed := by
  simp only [mem_mentions_fields, forall_exists_index, and_imp]
  exact ⟨fun only field mem mention => only mention field mem,
    fun only mention field mem => only field mem mention⟩

theorem composes_mentionsOnly : Composes (MentionsOnly allowed) where
  prim _ := nofun
  list only := only
  set only := only
  reified only := only
  map key_only value_only := List.forall_mem_append.mpr ⟨key_only, value_only⟩
  tuple only := mentionsOnly_fields.mpr only
  func only arguments_only :=
    List.forall_mem_append.mpr ⟨only, mentionsOnly_fields.mpr arguments_only⟩

/-- Replacing type parameters adds only mentions in what is given. -/
theorem MentionsOnly.subst (only : tree.MentionsOnly allowed)
    (known : ∀ name actual, given name = some actual → actual.MentionsOnly allowed) :
    (tree.subst given).MentionsOnly allowed := by
  have all {trees : List Tree} (ih : ∀ tree ∈ trees, tree.MentionsOnly allowed →
      (tree.subst given).MentionsOnly allowed)
      (only : ∀ mention ∈ Symbol.mentionsOfAll (symbols trees), allowed mention) :
      ∀ mention ∈ Symbol.mentionsOfAll (symbols (trees.map (Tree.subst given))), allowed mention := by
    rw [mentionsOnly_symbols] at only ⊢
    exact List.forall_mem_map.mpr fun tree mem => ih tree mem (only tree mem)
  have fields {fields : List (Field Tree)} (ih : ∀ field ∈ fields,
      field.type.MentionsOnly allowed → (field.type.subst given).MentionsOnly allowed)
      (only : ∀ mention ∈ Symbol.mentionsOfAll (symbolsOfFields fields), allowed mention) :
      ∀ mention ∈ Symbol.mentionsOfAll (symbolsOfFields (fields.map (Field.map (Tree.subst given)))),
        allowed mention := by
    rw [mentionsOnly_fields] at only ⊢
    exact List.forall_mem_map.mpr fun field mem => ih field mem (only field mem)
  induction tree using Tree.induction with
  | prim | sort => exact only
  | list _ ih | set _ ih | reified _ ih => exact ih only
  | map _ _ ih_key ih_value =>
    exact List.forall_mem_append.mpr ((List.forall_mem_append.mp only).imp ih_key ih_value)
  | tuple _ ih =>
    rw [Tree.subst, substFields_eq]
    exact fields ih only
  | func _ _ ih ih_arguments =>
    rw [Tree.subst, substFields_eq]
    exact List.forall_mem_append.mpr ((List.forall_mem_append.mp only).imp ih (fields ih_arguments))
  | parameter name bound =>
    rw [Tree.subst]
    cases given_eq : given name with
    | none => exact only
    | some actual => exact known name actual given_eq
  | dataRef _ _ ih | aliasRef _ _ _ ih =>
    rw [Tree.subst, substAll_eq]
    exact List.forall_mem_append.mpr ((List.forall_mem_append.mp only).imp_left (all ih))
  | constructor _ parameters _ _ ih ih_fields =>
    by_cases none_eq : parameters = []
    · subst none_eq
      exact only
    · rw [subst_constructor given none_eq]
      obtain ⟨owner_only, fields_only⟩ := List.forall_mem_append.mp only
      exact List.forall_mem_append.mpr ⟨List.forall_mem_append.mpr
        ((List.forall_mem_append.mp owner_only).imp_left (all ih)), fields ih_fields fields_only⟩

theorem MentionsOnly.applied (only : tree.MentionsOnly allowed) {actuals : List Tree}
    (known : ∀ actual ∈ actuals, actual.MentionsOnly allowed) :
    (tree.applied actuals).MentionsOnly allowed := by
  unfold Tree.applied
  split
  · exact only
  · exact only.subst fun _ actual given_eq =>
      known actual ((mem_of_foldl_bind given_eq).resolve_left (by simp))

end Tree

/-- What a symbol means mentions only what its names stand for mentions, names which stand for nothing,
nonterminals and the owners of constructors. -/
theorem Symbol.tree_mentionsOnly
    (declared : ∀ name, symbol.Names name → ∀ declared, meaning name = some declared →
      declared.MentionsOnly allowed)
    (names_allowed : ∀ name, symbol.Names name → allowed (.dataRef name))
    (sorts_allowed : ∀ name, .sort name ∈ symbol.mentions → allowed (.sort name))
    (owners_allowed : ∀ owner ∈ symbol.owners,
      allowed (.dataRef (owner.tree meaning).ownerName)) :
    (symbol.tree meaning).MentionsOnly allowed := by
  have supports : symbol.Supports meaning (Tree.MentionsOnly allowed) :=
    { parameter := fun _ _ => id
      named := fun name names actuals only => by
        rw [Meaning.named]
        split
        · next tree meaning_eq => exact (declared name names tree meaning_eq).applied only
        · exact List.forall_mem_append.mpr ⟨Tree.mentionsOnly_symbols.mpr only,
            List.forall_mem_singleton.mpr (names_allowed name names)⟩
      constructor := fun owner owner_mem _ _ only fields_only => by
        refine List.forall_mem_append.mpr ⟨List.forall_mem_append.mpr ⟨?_,
          List.forall_mem_singleton.mpr (owners_allowed owner owner_mem)⟩,
          Tree.mentionsOnly_fields.mpr fields_only⟩
        exact Tree.mentionsOnly_symbols.mpr fun parameter mem mention mention_mem =>
          only mention (Tree.mem_mentions_of_parameters mem mention_mem)
      sort := fun name mem => List.forall_mem_singleton.mpr (sorts_allowed name mem) }
  exact supports.tree Tree.composes_mentionsOnly

end Mentions

theorem Tree.fieldTrees_symbolsOfFields (meaning : Meaning) (fields : List (Field Tree)) :
    Symbol.fieldTrees meaning (symbolsOfFields fields) =
      fields.map (Field.map fun tree => tree.symbol.tree meaning) := by
  have label?_eq (tree : Tree) : tree.symbol.label? = none := by cases tree <;> rfl
  rw [Symbol.fieldTrees_eq, symbolsOfFields_eq, List.map_map]
  refine List.map_congr_left fun field _ => ?_
  obtain ⟨label, tree⟩ := field
  cases label with
  | none => exact congrArg (Field.mk · _) (label?_eq tree)
  | some label => rfl

/-- Whether a constructor of a declared data type keeps its owner when the formal parameters are
replaced by those of the owner. -/
def Meaning.Keeps (meaning : Meaning) (owner : Symbol) : Prop :=
  ∀ formals, meaning (owner.tree meaning).ownerName =
      some (.dataRef (owner.tree meaning).ownerName formals) →
    formals.map (.subst (.ofParameters formals (owner.tree meaning).parameters)) =
      (owner.tree meaning).parameters

/-- Whether the symbol of a tree means it. -/
def Tree.Recurs (again : Meaning) (tree : Tree) : Prop := tree.symbol.tree again = tree

/-- Whether a tree recurs if a claim holds of the names in it. -/
def Tree.RecursIf (again : Meaning) (known : String → Prop) (tree : Tree) : Prop :=
  (∀ name, tree.symbol.Names name → known name) → tree.Recurs again

namespace Tree

variable {meaning again : Meaning} {name : String}

theorem fieldTrees_recur {fields : List (Field Tree)}
    (recur : ∀ field ∈ fields, field.type.Recurs again) :
    Symbol.fieldTrees again (symbolsOfFields fields) = fields := by
  rw [fieldTrees_symbolsOfFields]
  refine (List.map_congr_left fun field mem => ?_).trans (List.map_id _)
  exact congrArg (Field.mk field.label) (recur field mem)

/-- What is composed of recurrent trees recurs. -/
theorem composes_recurs : Composes (Recurs again) where
  prim _ := rfl
  list recurs := congrArg list recurs
  set recurs := congrArg set recurs
  reified recurs := congrArg reified recurs
  map key_recurs value_recurs := congrArg₂ map key_recurs value_recurs
  tuple recur := congrArg tuple (fieldTrees_recur recur)
  func recurs recur := congrArg₂ func recurs (fieldTrees_recur recur)

/-- A reference recurs if it is what its name stands for again with what the symbols of its parameters
mean. -/
theorem IsReference.recurs_iff {tree : Tree} (is_reference : tree.IsReference)
    (name_eq : tree.name? = some name) : tree.Recurs again ↔
      again.named name (tree.parameters.map fun parameter => parameter.symbol.tree again) = tree := by
  cases is_reference with
  | dataRef other parameters | aliasRef other parameters =>
    obtain rfl : other = name := Option.some.inj name_eq
    simp [Recurs, symbol, Symbol.tree, Tree.parameters, Function.comp_def]

end Tree

namespace Meaning

variable {meaning again : Meaning} {name : String}

/-- Whether a name stands again for the same, except that a data type may have become opaque. -/
def Renews (meaning again : Meaning) (name : String) : Prop :=
  again name = meaning name ∨ again name = none ∧
    ∀ declared, meaning name = some declared → declared = .dataRef name declared.parameters

theorem isReference_named (declared : ∀ declared, meaning name = some declared →
      declared.IsReference) (actuals : List Tree) : (meaning.named name actuals).IsReference := by
  rw [named]
  split
  · next found meaning_eq => exact (declared found meaning_eq).applied actuals
  · exact .dataRef ..

theorem ownerName_named (declared : ∀ declared, meaning name = some declared →
      declared.IsReference ∧ declared.name? = some name) (actuals : List Tree) :
    (meaning.named name actuals).ownerName = name := by
  rw [named]
  split
  · next found meaning_eq =>
    obtain ⟨is_reference, name_eq⟩ := declared found meaning_eq
    rw [Tree.ownerName, is_reference.name?_applied, name_eq, Option.getD_some]
  · rfl

/-- A name which stands for a coherent declaration is for the parameters of a result what the result
is. -/
theorem named_parameters (coherent : ∀ declared, meaning name = some declared →
      declared.IsReference ∧ declared.Coherent) (actuals : List Tree) :
    meaning.named name (meaning.named name actuals).parameters = meaning.named name actuals := by
  rcases meaning_eq : meaning name with _ | declared
  · simp only [named, meaning_eq, Tree.parameters]
  · obtain ⟨is_reference, coherent⟩ := coherent declared meaning_eq
    simp only [named, meaning_eq]
    exact coherent.applied_parameters is_reference actuals

/-- A name which stands for a coherent declaration keeps owners which it stands for with their own
parameters. -/
theorem keeps_of_named {owner : Symbol} {tree : Tree} (owner_eq : owner.tree meaning = tree)
    (named_eq : (meaning.named tree.ownerName tree.parameters).parameters = tree.parameters)
    (coherent : ∀ declared, meaning tree.ownerName = some declared → declared.Coherent) :
    meaning.Keeps owner := by
  intro formals meaning_eq
  rw [owner_eq] at meaning_eq ⊢
  rw [named, meaning_eq] at named_eq
  exact (coherent _ meaning_eq).map_subst_parameters (.dataRef ..) named_eq

/-- Whether a name stands for a coherent declaration and stands again for the same as long as a claim
holds of it, or is a data type which has become opaque and whose formal parameters recur also when
others are replaced in them. -/
structure Restates (meaning again : Meaning) (known : String → Prop) (name : String) : Prop where
  renews : known name → meaning.Renews again name
  declares : ∀ declared, meaning name = some declared →
    declared.IsReference ∧ declared.name? = some name ∧ declared.Coherent
  formals : ∀ declared, meaning name = some declared → ∀ formal ∈ declared.parameters,
    formal.RecursIf again known
  hidden : known name → again name = none → ∀ declared, meaning name = some declared →
    ∀ formal ∈ declared.parameters, formal.Spreads (Tree.RecursIf again known)

/-- What a name is for actual parameters recurs. -/
theorem Restates.named_recurs {known : String → Prop} (restates : meaning.Restates again known name)
    {actuals : List Tree} (recur : ∀ actual ∈ actuals, actual.RecursIf again known) :
    (meaning.named name actuals).RecursIf again known := by
  intro names_known
  have parameters_known {parameter : Tree}
      (mem : parameter ∈ (meaning.named name actuals).parameters) (other : String)
      (names : parameter.symbol.Names other) : known other :=
    names_known other (Tree.names_of_parameters mem names)
  rw [named] at names_known parameters_known ⊢
  rcases meaning_eq : meaning name with _ | declared <;>
    simp only [meaning_eq] at names_known parameters_known ⊢
  · have name_known := names_known name (Symbol.names_dataRef.mpr (.inl rfl))
    have again_eq : again name = none := by
      rcases restates.renews name_known with again_eq | ⟨again_eq, -⟩
      · rw [again_eq, meaning_eq]
      · exact again_eq
    rw [(Tree.IsReference.dataRef name actuals).recurs_iff rfl, named, again_eq]
    refine congrArg (Tree.dataRef name) ((List.map_congr_left fun actual mem => ?_).trans
      (List.map_id _))
    exact recur actual mem (parameters_known mem)
  · obtain ⟨is_reference, name_eq, coherent⟩ := restates.declares declared meaning_eq
    have result_reference := is_reference.applied actuals
    have result_name_eq := (is_reference.name?_applied actuals).trans name_eq
    have name_known := names_known name (result_reference.names result_name_eq)
    rw [result_reference.recurs_iff result_name_eq, named]
    rcases again_eq : again name with _ | found
    · obtain ⟨-, data_eq⟩ :=
        (restates.renews name_known).resolve_left (by simp [again_eq, meaning_eq])
      have parameters_recur := is_reference.parameters_applied
        (restates.hidden name_known again_eq declared meaning_eq) recur
      have parameters_eq : (declared.applied actuals).parameters.map
          (fun parameter => parameter.symbol.tree again) = (declared.applied actuals).parameters :=
        (List.map_congr_left fun parameter mem =>
          parameters_recur parameter mem (parameters_known mem)).trans (List.map_id _)
      simp only [parameters_eq]
      rw [data_eq declared meaning_eq]
      exact (Tree.applied_dataRef ..).symm
    · obtain rfl : found = declared := by
        rcases restates.renews name_known with same | ⟨none_eq, -⟩
        · exact Option.some.inj (again_eq.symm.trans (same.trans meaning_eq))
        · cases none_eq.symm.trans again_eq
      refine coherent.applied_map_parameters is_reference fun _ _ parameter mem => ?_
      exact is_reference.of_mem_zip_parameters (restates.formals found meaning_eq) recur mem
        (parameters_known (List.of_mem_zip mem).2)

/-- Whether a tree is found again as the owner of a constructor: it is a recurrent reference, or the
data type which is made up for it has no parameters. -/
def Finds (again : Meaning) (owner : Tree) : Prop :=
  owner.IsReference ∧ owner.Recurs again ∨ owner.parameters = [] ∧
    ∀ declared, again owner.ownerName = some declared →
      declared.name? = some owner.ownerName ∧ declared.parameters = []

/-- The owner of a constructor is found again with its name and its parameters. -/
theorem Finds.owner_eq {owner : Tree} (finds : again.Finds owner) :
    let found := (Symbol.dataRef owner.ownerName (Tree.symbols owner.parameters)).tree again
    found.ownerName = owner.ownerName ∧ found.parameters = owner.parameters := by
  rcases finds with ⟨is_reference, recurs⟩ | ⟨parameters_eq, made_up⟩
  · have found_eq : (Symbol.dataRef owner.ownerName (Tree.symbols owner.parameters)).tree again =
        owner := by cases is_reference <;> exact recurs
    rw [found_eq]
    exact ⟨rfl, rfl⟩
  · rw [parameters_eq, Tree.symbols, Symbol.tree, Symbol.trees, named]
    cases again_eq : again owner.ownerName with
    | none => exact ⟨rfl, rfl⟩
    | some declared =>
      obtain ⟨name_eq, none_eq⟩ := made_up declared again_eq
      have applied_eq : declared.applied [] = declared := by rw [Tree.applied, if_pos (.inl rfl)]
      exact ⟨by simp only [applied_eq, Tree.ownerName, name_eq, Option.getD_some],
        by simp only [applied_eq, none_eq]⟩

/-- A constructor recurs if its owner is found again and its fields recur. -/
theorem Finds.constructor_recurs {owner : Tree} (finds : again.Finds owner)
    {fields : List (Field Tree)} (recur : ∀ field ∈ fields, field.type.Recurs again) :
    (Tree.constructor owner.ownerName owner.parameters name fields).Recurs again := by
  obtain ⟨name_eq, parameters_eq⟩ := finds.owner_eq
  rw [Tree.Recurs, Tree.symbol, Symbol.tree, name_eq, parameters_eq, Tree.fieldTrees_recur recur]

end Meaning

/-- What a symbol means recurs if the names in it restate declarations and the owners of its
constructors are found again. -/
theorem Symbol.supports_recurs {meaning again : Meaning} {known : String → Prop} {symbol : Symbol}
    (restates : ∀ name, symbol.Names name → meaning.Restates again known name)
    (owners : ∀ owner ∈ symbol.owners, (owner.tree meaning).IsReference ∨
      (owner.tree meaning).parameters = [] ∧
        ∀ declared, again (owner.tree meaning).ownerName = some declared →
          declared.name? = some (owner.tree meaning).ownerName ∧ declared.parameters = []) :
    symbol.Supports meaning (Tree.RecursIf again known) where
  parameter found _ recurs names_known := congrArg (Tree.parameter found.1) (recurs names_known)
  named name names _ recur := (restates name names).named_recurs recur
  constructor owner mem name fields recurs recur names_known := by
    have finds : again.Finds (owner.tree meaning) := by
      refine (owners owner mem).imp_left fun is_reference => ⟨is_reference, recurs ?_⟩
      exact fun other names =>
        names_known other (Symbol.names_constructor.mpr (.inl (is_reference.names_owner names)))
    refine finds.constructor_recurs fun field field_mem => recur field field_mem fun other names => ?_
    obtain ⟨mention, mention_mem, declared⟩ := Tree.names_of_fields field_mem names
    exact names_known other ⟨mention, List.mem_append_right _ mention_mem, declared⟩
  sort _ _ _ := rfl

end Reification
