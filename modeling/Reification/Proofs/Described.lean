import Reification.Proofs.Composition
import Reification.Proofs.Formals
import Reification.Proofs.Saturation
import Reification.Proofs.Transport
import Reification.Proofs.Traversal

/-!
# Described types

A type is described by a context if every name which is reached from it is declared as what it is
used as, and every reference agrees with the declaration of its name.  What such a type shows is then
the tree which its symbol means.
-/

namespace Reification

/-- The constructors which are declared for a data type in any layer. -/
def Registry.declaredConstructors (registry : Registry) (name : String) : List (Constructor Ty) :=
  registry.layers.flatMap (·.constructorsOf name)

namespace Ty

/-- The use of a name which a type makes itself. -/
def mention? : Ty → Option Mention
  | dataRef reference => some (.dataRef reference.name)
  | aliasRef reference => some (.aliasRef reference.name)
  | constructor reference => some (.dataRef reference.owner.name)
  | sort name => some (.sort name)
  | _ => none

theorem symbol_label? (type : Ty) : type.symbol.label? = none := by
  cases type <;> rfl

theorem mem_mentionsOfAll_symbolsOfFields {fields : List (Field Ty)} {mention : Mention} :
    mention ∈ Symbol.mentionsOfAll (symbolsOfFields fields) ↔
      ∃ field ∈ fields, mention ∈ field.type.symbol.mentions := by
  simp [Symbol.mentionsOfAll_eq, Field.map, Field.mentions_symbol]

theorem mem_mentionsOfAll_symbols {types : List Ty} {mention : Mention} :
    mention ∈ Symbol.mentionsOfAll (symbols types) ↔
      ∃ type ∈ types, mention ∈ type.symbol.mentions := by
  simp [Symbol.mentionsOfAll_eq]

/-- The names of the references in a type are mentioned in its symbol. -/
theorem allReferences_mentions (type : Ty) : type.AllReferences fun reference =>
    ∀ mention, reference.mention? = some mention → mention ∈ type.symbol.mentions := by
  have widen {part : Ty} {mentions : List Mention} (known : part.AllReferences fun reference =>
      ∀ mention, reference.mention? = some mention → mention ∈ part.symbol.mentions)
      (le : ∀ mention ∈ part.symbol.mentions, mention ∈ mentions) :
      part.AllReferences fun reference =>
        ∀ mention, reference.mention? = some mention → mention ∈ mentions :=
    known.imp fun _ mem mention mention_eq => le mention (mem mention mention_eq)
  induction type using Ty.induction with
  | prim => simp
  | sort => simp
  | list _ ih | set _ ih | reified _ ih | parameter _ _ ih => exact ih
  | map _ _ ih_key ih_value =>
    rw [allReferences_map]
    exact ⟨widen ih_key fun _ mem => List.mem_append_left _ mem,
      widen ih_value fun _ mem => List.mem_append_right _ mem⟩
  | tuple _ ih =>
    rw [allReferences_tuple]
    exact fun field mem => widen (ih field mem) fun _ mention_mem =>
      mem_mentionsOfAll_symbolsOfFields.mpr ⟨field, mem, mention_mem⟩
  | func _ _ ih ih_arguments =>
    rw [allReferences_func]
    exact ⟨widen ih fun _ mem => List.mem_append_left _ mem,
      fun field mem => widen (ih_arguments field mem) fun _ mention_mem =>
        List.mem_append_right _ (mem_mentionsOfAll_symbolsOfFields.mpr ⟨field, mem, mention_mem⟩)⟩
  | dataRef _ _ _ ih =>
    rw [allReferences_dataRef]
    exact ⟨by simp [mention?, symbol, Symbol.mentions], fun type mem =>
      widen (ih type mem) fun _ mention_mem =>
        List.mem_append_left _ (mem_mentionsOfAll_symbols.mpr ⟨type, mem, mention_mem⟩)⟩
  | aliasRef _ _ _ ih =>
    rw [allReferences_aliasRef]
    exact ⟨by simp [mention?, symbol, Symbol.mentions], fun type mem =>
      widen (ih type mem) fun _ mention_mem =>
        List.mem_append_left _ (mem_mentionsOfAll_symbols.mpr ⟨type, mem, mention_mem⟩)⟩
  | constructor _ _ _ _ _ _ _ ih ih_fields =>
    rw [allReferences_constructor, allReferences_dataRef]
    exact ⟨by simp [mention?, symbol, Symbol.mentions],
      ⟨by simp [mention?, symbol, Symbol.mentions], fun type mem =>
        widen (ih type mem) fun _ mention_mem => List.mem_append_left _
          (List.mem_append_left _ (mem_mentionsOfAll_symbols.mpr ⟨type, mem, mention_mem⟩))⟩,
      fun field mem => widen (ih_fields field mem) fun _ mention_mem =>
        List.mem_append_right _ (mem_mentionsOfAll_symbolsOfFields.mpr ⟨field, mem, mention_mem⟩)⟩

/-- The owner of a constructor in the symbol of a type is the symbol of a reference in the type. -/
theorem exists_owner {type : Ty} {owner : Symbol} (mem : owner ∈ type.symbol.owners) :
    ∃ reference, dataRef reference ∈ type.references ∧ owner = (dataRef reference).symbol := by
  have fields {fields : List (Field Ty)} (ih : ∀ field ∈ fields,
      owner ∈ field.type.symbol.owners → ∃ reference,
        dataRef reference ∈ field.type.references ∧ owner = (dataRef reference).symbol)
      (mem : owner ∈ Symbol.ownersOfAll (symbolsOfFields fields)) : ∃ reference,
        dataRef reference ∈ referencesOfFields fields ∧ owner = (dataRef reference).symbol := by
    simp only [Symbol.ownersOfAll_eq, symbolsOfFields_eq, List.flatMap_map, List.mem_flatMap,
      Field.map, Field.owners_symbol] at mem
    obtain ⟨field, field_mem, mem⟩ := mem
    obtain ⟨reference, reference_mem, owner_eq⟩ := ih field field_mem mem
    rw [referencesOfFields_eq]
    exact ⟨reference, List.mem_flatMap.mpr ⟨field, field_mem, reference_mem⟩, owner_eq⟩
  have all {types : List Ty} (ih : ∀ type ∈ types, owner ∈ type.symbol.owners → ∃ reference,
      dataRef reference ∈ type.references ∧ owner = (dataRef reference).symbol)
      (mem : owner ∈ Symbol.ownersOfAll (symbols types)) : ∃ reference,
        dataRef reference ∈ referencesOfAll types ∧ owner = (dataRef reference).symbol := by
    simp only [Symbol.ownersOfAll_eq, symbols_eq, List.flatMap_map, List.mem_flatMap] at mem
    obtain ⟨type, type_mem, mem⟩ := mem
    obtain ⟨reference, reference_mem, owner_eq⟩ := ih type type_mem mem
    rw [referencesOfAll_eq]
    exact ⟨reference, List.mem_flatMap.mpr ⟨type, type_mem, reference_mem⟩, owner_eq⟩
  have append {left right : List Ty} (found : (∃ reference, dataRef reference ∈ left ∧
      owner = (dataRef reference).symbol) ∨ ∃ reference, dataRef reference ∈ right ∧
        owner = (dataRef reference).symbol) : ∃ reference,
          dataRef reference ∈ left ++ right ∧ owner = (dataRef reference).symbol := by
    simpa only [List.mem_append, or_and_right, exists_or] using found
  have behind {first : Ty} {rest : List Ty} (found : ∃ reference, dataRef reference ∈ rest ∧
      owner = (dataRef reference).symbol) : ∃ reference,
        dataRef reference ∈ first :: rest ∧ owner = (dataRef reference).symbol :=
    found.imp fun _ found => ⟨List.mem_cons_of_mem _ found.1, found.2⟩
  induction type using Ty.induction with
  | prim | sort => cases mem
  | list _ ih | set _ ih | reified _ ih | parameter _ _ ih => exact ih mem
  | map _ _ ih_key ih_value => exact append ((List.mem_append.mp mem).imp ih_key ih_value)
  | tuple _ ih => exact fields ih mem
  | func _ _ ih ih_arguments => exact append ((List.mem_append.mp mem).imp ih (fields ih_arguments))
  | dataRef _ _ _ ih | aliasRef _ _ _ ih => exact behind (all ih mem)
  | constructor object owner ownerName parameters name _ attributes ih ih_fields =>
    refine behind ?_
    rcases List.mem_cons.mp mem with rfl | mem
    · exact ⟨⟨owner, ownerName, parameters⟩, List.mem_cons_self .., rfl⟩
    · exact behind (append ((List.mem_append.mp mem).imp (all ih) (fields ih_fields)))

theorem fieldTrees_symbolsOfFields (meaning : Meaning) (fields : List (Field Ty)) :
    Symbol.fieldTrees meaning (symbolsOfFields fields) =
      fields.map (Field.map fun type => type.symbol.tree meaning) := by
  induction fields with
  | nil => rfl
  | cons field fields ih =>
    obtain ⟨label, type⟩ := field
    rw [symbolsOfFields, Symbol.fieldTrees, ih]
    cases label with
    | none => simp [Field.symbol, Field.map, symbol_label?]
    | some label => simp [Field.symbol, Field.map, Symbol.label?, Symbol.tree]

end Ty

namespace Reify

namespace Context

variable (context : Context)

/-- The types which the declaration of a name consists of. -/
def partsOf : Mention → List Ty
  | .dataRef name =>
    match context.registry.lookupData? name with
    | some declared => declared.parameters ++
        (context.registry.declaredConstructors name).flatMap fun constructor =>
          constructor.fields.map (·.type)
    | none => []
  | .aliasRef name =>
    match context.registry.lookupAlias? name with
    | some declared => declared.parameters ++ (context.store.body? declared).toList
    | none => []
  | .sort _ => []

/-- Whether the declaration of a name mentions another one. -/
def Uses (mention next : Mention) : Prop :=
  ∃ part ∈ context.partsOf mention, next ∈ part.symbol.mentions

/-- Whether a name is mentioned in a type or in the declarations to which its names lead. -/
def Reaches (type : Ty) (mention : Mention) : Prop :=
  ∃ first ∈ type.symbol.mentions, Relation.ReflTransGen context.Uses first mention

/-- Whether a type is another one or part of a declaration which is reached from that. -/
def Within (type part : Ty) : Prop :=
  part = type ∨ ∃ mention, context.Reaches type mention ∧ part ∈ context.partsOf mention

/-- Whether an alias equals the declared one for the parameters of the alias. -/
def Carries (declared reference : AliasRef Ty) : Prop :=
  (Reconstruct.applied (.aliasRef declared) reference.parameters).Meets { store := context.store }
    (fun type after => after.store.same type (.aliasRef reference) = some true) fun _ _ => False

/-- Whether a reference agrees with the declaration of its name: it has as many parameters, and the
body of an alias is the declared one for them. -/
def Agrees : Ty → Prop
  | .dataRef reference => ∀ declared,
    context.registry.lookupData? reference.name = some declared →
      reference.parameters.length = declared.parameters.length
  | .aliasRef reference => ∀ declared,
    context.registry.lookupAlias? reference.name = some declared →
      reference.parameters.length = declared.parameters.length ∧ context.Carries declared reference
  | _ => True

/-- Whether everything which is reached from a type is declared as it is used. -/
structure Describes (heap : Heap) (type : Ty) : Prop where
  store_eq : heap.store = context.store
  holds : heap.Holds type
  agrees : ∀ {part}, context.Within type part → part.AllReferences context.Agrees
  /-- Every name is used in one way only. -/
  one_kind : ∀ {mention other}, context.Reaches type mention → context.Reaches type other →
    mention.name = other.name → mention = other
  data : ∀ {name}, context.Reaches type (.dataRef name) → ∃ declared,
    context.registry.lookupData? name = some declared ∧ declared.name = name ∧
      heap.Known (.dataRef declared) ∧ Ty.AreFormals declared.parameters
  /-- The constructors of a data type belong to the declared one. -/
  constructors : ∀ {name declared constructor}, context.Reaches type (.dataRef name) →
    context.registry.lookupData? name = some declared →
    constructor ∈ context.registry.declaredConstructors name →
    heap.Known (.constructor constructor) ∧
      context.store.same (.dataRef declared) (.dataRef constructor.owner) = some true
  /-- The slot of an alias is filled. -/
  alias_ : ∀ {name}, context.Reaches type (.aliasRef name) → ∃ declared body,
    context.registry.lookupAlias? name = some declared ∧ declared.name = name ∧
      heap.Known (.aliasRef declared) ∧ Ty.AreFormals declared.parameters ∧
      context.store.body? declared = some body
  /-- No alias with parameters is reached from its own declaration. -/
  acyclic : ∀ {name declared}, context.Reaches type (.aliasRef name) →
    context.registry.lookupAlias? name = some declared → declared.parameters ≠ [] →
    ¬Relation.TransGen context.Uses (.aliasRef name) (.aliasRef name)

/-- A heap in which the aliases without parameters that equal the declared one stand for it. -/
def scope (heap : Heap) : Scope :=
  { heap with
    Leaf := fun reference => heap.Known (.aliasRef reference) ∧ ∃ declared,
      context.registry.lookupAlias? reference.name = some declared ∧
        heap.Known (.aliasRef declared) ∧
        heap.store.same (.aliasRef declared) (.aliasRef reference) = some true }

/-- What names stand for by their declarations if the bodies of aliases are given.  The body of an
alias without parameters is not unfolded, and a data type without constructors stays opaque. -/
noncomputable def meaning (bodies : String → Tree) : Meaning := fun name =>
  match context.registry.lookup? name with
  | some (.dataRef declared) =>
    if (context.registry.declaredConstructors name).isEmpty then none
    else some (.dataRef name (Ty.plainTrees declared.parameters))
  | some (.aliasRef declared) =>
    some (.aliasRef name (Ty.plainTrees declared.parameters)
      (if declared.parameters.isEmpty then none else some (bodies name)))
  | _ => none

variable {context} {heap : Heap} {bodies : String → Tree}

theorem scope_leavesAgree : (context.scope heap).LeavesAgree := by
  rintro left right left_known right_known ⟨-, declared, declared_eq, known, left_same⟩
    ⟨-, other, other_eq, -, right_same⟩ - - name_eq
  rw [name_eq] at declared_eq
  obtain rfl := Option.some.inj (declared_eq.symm.trans other_eq)
  exact Heap.same_trans ((Heap.holds_aliasRef left).mpr left_known)
    ((Heap.holds_aliasRef declared).mpr known) ((Heap.holds_aliasRef right).mpr right_known)
    (Store.same_symm left_same) right_same

theorem scope_leavesClosed : (context.scope heap).LeavesClosed where
  known leaf := leaf.1
  leaf_of_same := by
    rintro left right ⟨left_known, declared, declared_eq, known, left_same⟩ right_known equal
    refine ⟨right_known, declared, ?_, known, ?_⟩
    · rw [← (Heap.same_aliasRef left_known right_known equal).1]
      exact declared_eq
    · exact Heap.same_trans ((Heap.holds_aliasRef declared).mpr known)
        ((Heap.holds_aliasRef left).mpr left_known) ((Heap.holds_aliasRef right).mpr right_known)
        left_same equal

/-- What a name means as a data type. -/
theorem meaning_of_data {name : String} {declared : DataRef Ty}
    (declared_eq : context.registry.lookupData? name = some declared) :
    context.meaning bodies name = if (context.registry.declaredConstructors name).isEmpty then none
      else some (.dataRef name (Ty.plainTrees declared.parameters)) := by
  rw [Registry.lookupData?_eq_some_iff] at declared_eq
  simp [meaning, declared_eq]

/-- What a name means as a data type with as many parameters as it is declared with. -/
theorem named_of_data {name : String} {declared : DataRef Ty} {trees : List Tree}
    (declared_eq : context.registry.lookupData? name = some declared)
    (are_formals : Ty.AreFormals declared.parameters)
    (length_eq : trees.length = declared.parameters.length) :
    (context.meaning bodies).named name trees = .dataRef name trees := by
  rw [Meaning.named, meaning_of_data declared_eq]
  cases (context.registry.declaredConstructors name).isEmpty with
  | true => rfl
  | false =>
    exact are_formals.plainTrees.applied_dataRef (by simpa [Ty.plainTrees] using length_eq.symm) name

/-- What a name means as an alias. -/
theorem meaning_of_alias {name : String} {declared : AliasRef Ty}
    (declared_eq : context.registry.lookupAlias? name = some declared) :
    context.meaning bodies name = some (.aliasRef name (Ty.plainTrees declared.parameters)
      (if declared.parameters.isEmpty then none else some (bodies name))) := by
  rw [Registry.lookupAlias?_eq_some_iff] at declared_eq
  simp [meaning, declared_eq]

/-- Whether a reference is declared and agrees with its declaration, which shows what the name means
if it is an alias with parameters. -/
def Suits (context : Context) (heap : Heap) (bodies : String → Tree) : Ty → Prop
  | .dataRef reference => ∃ declared,
    context.registry.lookupData? reference.name = some declared ∧
      Ty.AreFormals declared.parameters ∧
      reference.parameters.length = declared.parameters.length
  | .aliasRef reference => ∃ declared,
    context.registry.lookupAlias? reference.name = some declared ∧
      declared.name = reference.name ∧ heap.Known (.aliasRef declared) ∧
      reference.parameters.length = declared.parameters.length ∧
      context.Carries declared reference ∧
      (declared.parameters ≠ [] → (context.scope heap).Denotes (.aliasRef declared)
        (.aliasRef declared.name (Ty.plainTrees declared.parameters)
          (some (bodies declared.name))))
  | _ => True

/-- A reference to a data type means itself with what its parameters mean. -/
theorem tree_dataRef {reference : DataRef Ty}
    (suits : context.Suits heap bodies (.dataRef reference)) :
    (Ty.dataRef reference).symbol.tree (context.meaning bodies) = .dataRef reference.name
      (reference.parameters.map fun type => type.symbol.tree (context.meaning bodies)) := by
  obtain ⟨declared, declared_eq, are_formals, length_eq⟩ := suits
  obtain ⟨object, name, parameters⟩ := reference
  simp only [Ty.symbol, Symbol.tree, Symbol.trees_eq, Ty.symbols_eq, List.map_map]
  exact named_of_data declared_eq are_formals (by simpa using length_eq)

theorem denoteAll_symbols {types : List Ty}
    (denote : ∀ type ∈ types,
      (context.scope heap).Denotes type (type.symbol.tree (context.meaning bodies))) :
    (context.scope heap).DenoteAll types
      (types.map fun type => type.symbol.tree (context.meaning bodies)) :=
  Scope.denoteAll_iff.mpr (List.forall₂_map_right_iff.mpr (List.forall₂_same.mpr denote))

theorem denoteFields_symbols {fields : List (Field Ty)}
    (denote : ∀ field ∈ fields, (context.scope heap).Denotes field.type
      (field.type.symbol.tree (context.meaning bodies))) :
    (context.scope heap).DenoteFields fields
      (Symbol.fieldTrees (context.meaning bodies) (Ty.symbolsOfFields fields)) := by
  rw [Ty.fieldTrees_symbolsOfFields]
  exact Scope.denoteFields_iff.mpr (List.forall₂_map_right_iff.mpr
    (List.forall₂_same.mpr fun field mem => ⟨rfl, denote field mem⟩))

/-- A reference to an alias shows what its symbol means. -/
theorem denotes_aliasRef (store_eq : heap.store = context.store) {reference : AliasRef Ty}
    (known : heap.Known (.aliasRef reference))
    (suits : context.Suits heap bodies (.aliasRef reference))
    (denote : ∀ type ∈ reference.parameters,
      (context.scope heap).Denotes type (type.symbol.tree (context.meaning bodies))) :
    (context.scope heap).Denotes (.aliasRef reference)
      ((Ty.aliasRef reference).symbol.tree (context.meaning bodies)) := by
  obtain ⟨declared, declared_eq, name_eq, declared_known, length_eq, carries, ready⟩ := suits
  have tree_eq : (Ty.aliasRef reference).symbol.tree (context.meaning bodies) =
      (Tree.aliasRef reference.name (Ty.plainTrees declared.parameters)
        (if declared.parameters.isEmpty then none else some (bodies reference.name))).applied
          (reference.parameters.map fun type => type.symbol.tree (context.meaning bodies)) := by
    obtain ⟨object, name, parameters⟩ := reference
    simp [Ty.symbol, Symbol.tree, Meaning.named, meaning_of_alias declared_eq, Function.comp_def]
  rw [tree_eq]
  by_cases none : reference.parameters = []
  · have declared_none : declared.parameters = [] := by simpa [none] using length_eq.symm
    have equal : context.store.same (.aliasRef declared) (.aliasRef reference) = some true := by
      unfold Carries at carries
      rwa [none] at carries
    have leaf : (context.scope heap).Leaf reference :=
      ⟨known, declared, declared_eq, declared_known, store_eq ▸ equal⟩
    simpa [none, declared_none, Ty.plainTrees, Tree.applied] using Scope.Denotes.leaf known leaf none
  · have declared_some : declared.parameters ≠ [] := fun declared_none =>
      none (by simpa [declared_none] using length_eq)
    have shows_ := ready declared_some
    rw [name_eq] at shows_
    rw [if_neg (by simpa using declared_some)]
    have store_eq' : (context.scope heap).store = ({ store := context.store } : World).store :=
      store_eq
    -- The declared alias for these parameters shows the tree, and the reference equals it.
    refine Building.Meets.elim
      ((shows_.applied_meets scope_leavesAgree store_eq' (denoteAll_symbols denote)).and carries) ?_
      fun _ _ failed => failed.2.elim
    rintro type after ⟨⟨wider, growsTo, rfl, denotes⟩, equal⟩
    exact denotes.of_same scope_leavesClosed growsTo ((Heap.holds_aliasRef reference).mpr known)
      equal

/-- A type whose references are suitable shows what its symbol means. -/
theorem denotes_symbol (store_eq : heap.store = context.store) {type : Ty} (holds : heap.Holds type)
    (suits : type.AllReferences (context.Suits heap bodies)) :
    (context.scope heap).Denotes type (type.symbol.tree (context.meaning bodies)) := by
  induction type using Ty.induction with
  | prim => exact .prim _
  | sort => exact .sort _
  | list _ ih => exact .list (ih holds suits)
  | set _ ih => exact .set (ih holds suits)
  | reified _ ih => exact .reified (ih holds suits)
  | parameter name _ ih => exact .parameter name (ih holds suits)
  | map _ _ ih_key ih_value =>
    rw [Heap.holds_map] at holds
    rw [Ty.allReferences_map] at suits
    exact .map (ih_key holds.1 suits.1) (ih_value holds.2 suits.2)
  | tuple _ ih =>
    rw [Heap.holds_tuple] at holds
    rw [Ty.allReferences_tuple] at suits
    exact .tuple (denoteFields_symbols fun field mem =>
      ih field mem (holds field mem) (suits field mem))
  | func _ _ ih ih_arguments =>
    rw [Heap.holds_func] at holds
    rw [Ty.allReferences_func] at suits
    exact .func (ih holds.1 suits.1)
      (denoteFields_symbols fun field mem =>
        ih_arguments field mem (holds.2 field mem) (suits.2 field mem))
  | dataRef object name parameters ih =>
    have known := (Heap.holds_dataRef _).mp holds
    rw [Ty.allReferences_dataRef] at suits
    rw [tree_dataRef suits.1]
    exact .dataRef known (denoteAll_symbols fun type mem =>
      ih type mem (Heap.holds_of_mem_parameters known mem) (suits.2 type mem))
  | aliasRef object name parameters ih =>
    have known := (Heap.holds_aliasRef _).mp holds
    rw [Ty.allReferences_aliasRef] at suits
    exact denotes_aliasRef store_eq known suits.1 fun type mem =>
      ih type mem (Heap.holds_of_mem_parameters_alias known mem) (suits.2 type mem)
  | constructor object owner ownerName parameters name constructorFields attributes ih ih_fields =>
    have known := (Heap.holds_constructor _).mp holds
    have owner_known := Heap.known_owner known
    rw [Ty.allReferences_constructor, Ty.allReferences_dataRef] at suits
    obtain ⟨-, ⟨owner_suits, parameters_suit⟩, fields_suit⟩ := suits
    have owner_eq : (Symbol.dataRef ownerName (Ty.symbols parameters)).tree
        (context.meaning bodies) = _ := tree_dataRef owner_suits
    rw [Ty.symbol, Symbol.tree, owner_eq]
    exact .constructor known (denoteAll_symbols fun type mem =>
      ih type mem (Heap.holds_of_mem_parameters owner_known mem) (parameters_suit type mem))
      (denoteFields_symbols fun field mem =>
        ih_fields field mem (Heap.holds_of_mem_fields known mem) (fields_suit field mem))

open Classical in
/-- What the body of a declared alias shows. -/
noncomputable def declaredBody (context : Context) (heap : Heap) (name : String) : Tree :=
  if shown : ∃ tree declared body, context.registry.lookupAlias? name = some declared ∧
      context.store.body? declared = some body ∧ (context.scope heap).Denotes body tree then
    shown.choose
  else .prim .value

theorem declaredBody_eq {name : String} {declared : AliasRef Ty} {body : Ty} {tree : Tree}
    (declared_eq : context.registry.lookupAlias? name = some declared)
    (body_eq : context.store.body? declared = some body)
    (denotes : (context.scope heap).Denotes body tree) : context.declaredBody heap name = tree := by
  have shown : ∃ tree declared body, context.registry.lookupAlias? name = some declared ∧
      context.store.body? declared = some body ∧ (context.scope heap).Denotes body tree :=
    ⟨tree, declared, body, declared_eq, body_eq, denotes⟩
  rw [declaredBody, dif_pos shown]
  obtain ⟨other, other_body, other_eq, other_body_eq, other_denotes⟩ := shown.choose_spec
  obtain rfl := Option.some.inj (declared_eq.symm.trans other_eq)
  obtain rfl := Option.some.inj (body_eq.symm.trans other_body_eq)
  exact other_denotes.unique denotes

section Reaches

variable {type part : Ty} {mention next : Mention} {name : String}

theorem Reaches.uses (reaches : context.Reaches type mention) (uses : context.Uses mention next) :
    context.Reaches type next := by
  obtain ⟨first, mem, path⟩ := reaches
  exact ⟨first, mem, path.tail uses⟩

theorem Within.reaches (within : context.Within type part) (mem : mention ∈ part.symbol.mentions) :
    context.Reaches type mention := by
  obtain rfl | ⟨user, reaches, part_mem⟩ := within
  · exact ⟨mention, mem, .refl⟩
  · exact reaches.uses ⟨part, part_mem, mem⟩

/-- What is reached lies among some names if the type and the declarations of these mention no
others. -/
theorem Reaches.mem_of_closed {mentions : List Mention}
    (start : ∀ first ∈ type.symbol.mentions, first ∈ mentions)
    (closed : ∀ user ∈ mentions, ∀ part ∈ context.partsOf user,
      ∀ next ∈ part.symbol.mentions, next ∈ mentions)
    (reaches : context.Reaches type mention) : mention ∈ mentions := by
  obtain ⟨first, mem, path⟩ := reaches
  induction path with
  | refl => exact start first mem
  | tail _ uses ih =>
    obtain ⟨part, part_mem, next_mem⟩ := uses
    exact closed _ ih part part_mem _ next_mem

theorem mem_partsOf_data {declared : DataRef Ty}
    (declared_eq : context.registry.lookupData? name = some declared) :
    part ∈ context.partsOf (.dataRef name) ↔ part ∈ declared.parameters ∨
      ∃ constructor ∈ context.registry.declaredConstructors name,
        ∃ field ∈ constructor.fields, field.type = part := by
  simp [partsOf, declared_eq]

theorem mem_partsOf_alias {declared : AliasRef Ty}
    (declared_eq : context.registry.lookupAlias? name = some declared) :
    part ∈ context.partsOf (.aliasRef name) ↔
      part ∈ declared.parameters ∨ context.store.body? declared = some part := by
  simp [partsOf, declared_eq]

end Reaches

namespace Describes

variable {type part : Ty} {name : String}

theorem holds_of_within (describes : context.Describes heap type)
    (within : context.Within type part) : heap.Holds part := by
  obtain rfl | ⟨mention, reaches, mem⟩ := within
  · exact describes.holds
  · cases mention with
    | dataRef name =>
      obtain ⟨declared, declared_eq, -, known, -⟩ := describes.data reaches
      rcases (mem_partsOf_data declared_eq).mp mem with
        mem | ⟨constructor, constructor_mem, field, field_mem, rfl⟩
      · exact Heap.holds_of_mem_parameters known mem
      · exact Heap.holds_of_mem_fields
          (describes.constructors reaches declared_eq constructor_mem).1 field_mem
    | aliasRef name =>
      obtain ⟨declared, body, declared_eq, -, known, -⟩ := describes.alias_ reaches
      rcases (mem_partsOf_alias declared_eq).mp mem with mem | body_eq
      · exact Heap.holds_of_mem_parameters_alias known mem
      · exact Heap.holds_body known (describes.store_eq ▸ body_eq)
    | sort name => cases mem

/-- Whether an alias shows its parameters and its body, if it has parameters. -/
def Ready (context : Context) (heap : Heap) (name : String) : Prop :=
  ∀ declared, context.registry.lookupAlias? name = some declared → declared.parameters ≠ [] →
    (context.scope heap).Denotes (.aliasRef declared) (.aliasRef declared.name
      (Ty.plainTrees declared.parameters) (some (context.declaredBody heap declared.name)))

theorem suits_of_ready (describes : context.Describes heap type)
    (within : context.Within type part)
    (ready : ∀ name, .aliasRef name ∈ part.symbol.mentions → Ready context heap name) :
    part.AllReferences (context.Suits heap (context.declaredBody heap)) := fun reference mem => by
  have mentioned := part.allReferences_mentions reference mem
  have agrees := describes.agrees within reference mem
  cases reference with
  | dataRef reference =>
    obtain ⟨declared, declared_eq, -, -, are_formals⟩ :=
      describes.data (within.reaches (mentioned _ rfl))
    exact ⟨declared, declared_eq, are_formals, agrees declared declared_eq⟩
  | aliasRef reference =>
    obtain ⟨declared, body, declared_eq, name_eq, known, are_formals, body_eq⟩ :=
      describes.alias_ (within.reaches (mentioned _ rfl))
    obtain ⟨length_eq, carries⟩ := agrees declared declared_eq
    exact ⟨declared, declared_eq, name_eq, known, length_eq, carries,
      ready reference.name (mentioned _ rfl) declared declared_eq⟩
  | _ => trivial

theorem denotes_of_ready (describes : context.Describes heap type)
    (within : context.Within type part)
    (ready : ∀ name, .aliasRef name ∈ part.symbol.mentions → Ready context heap name) :
    (context.scope heap).Denotes part
      (part.symbol.tree (context.meaning (context.declaredBody heap))) :=
  denotes_symbol describes.store_eq (describes.holds_of_within within)
    (describes.suits_of_ready within ready)

/-- Formal parameters show themselves. -/
theorem denote_formals (describes : context.Describes heap type) {formals : List Ty}
    (are_formals : Ty.AreFormals formals) (within : ∀ formal ∈ formals, context.Within type formal) :
    (context.scope heap).DenoteAll formals (Ty.plainTrees formals) := by
  refine Scope.denoteAll_iff.mpr (List.forall₂_map_right_iff.mpr
    (List.forall₂_same.mpr fun formal mem => ?_))
  rw [← are_formals.tree_eq mem (context.meaning (context.declaredBody heap))]
  exact describes.denotes_of_ready (within formal mem) fun name mention_mem =>
    absurd ⟨_, mention_mem, rfl⟩ (are_formals.not_names mem name)

/-- Every alias which is reached is ready, since none with parameters reaches itself. -/
theorem ready (describes : context.Describes heap type)
    (reaches : context.Reaches type (.aliasRef name)) : Ready context heap name := by
  let leads (one other : String) : Prop := context.Reaches type (.aliasRef one) ∧
    context.Uses (.aliasRef one) (.aliasRef other) ∧
    ∃ declared, context.registry.lookupAlias? other = some declared ∧ declared.parameters ≠ []
  have bounded {one other : String} (related : leads one other) : other ∈ context.names := by
    obtain ⟨-, -, declared, declared_eq, -⟩ := related
    exact mem_names (Registry.lookupAlias?_eq_some_iff.mp declared_eq)
  have acyclic (one : String) : ¬Relation.TransGen leads one one := fun cycle => by
    obtain ⟨_, -, -, -, declared, declared_eq, some_parameter⟩ :=
      Relation.TransGen.tail'_iff.mp cycle
    obtain ⟨_, ⟨reaches, -⟩, -⟩ := Relation.TransGen.head'_iff.mp cycle
    exact describes.acyclic reaches declared_eq some_parameter
      (cycle.lift Mention.aliasRef fun _ _ related => related.2.1)
  refine induction_of_acyclic (P := fun name => context.Reaches type (.aliasRef name) →
    Ready context heap name) context.names bounded acyclic (fun name ih reaches => ?_) name reaches
  intro declared declared_eq some_parameter
  obtain ⟨_, body, other_eq, name_eq, known, are_formals, body_eq⟩ := describes.alias_ reaches
  obtain rfl := Option.some.inj (declared_eq.symm.trans other_eq)
  have within (part : Ty) (mem : part ∈ context.partsOf (.aliasRef name)) :
      context.Within type part := .inr ⟨_, reaches, mem⟩
  have body_mem : body ∈ context.partsOf (.aliasRef name) :=
    (mem_partsOf_alias declared_eq).mpr (.inr body_eq)
  have body_denotes := describes.denotes_of_ready (within body body_mem) fun other mem =>
    fun last last_eq last_some => ih other
      ⟨reaches, ⟨body, body_mem, mem⟩, last, last_eq, last_some⟩
      ((within body body_mem).reaches mem) last last_eq last_some
  rw [name_eq, declaredBody_eq declared_eq body_eq body_denotes, ← name_eq]
  refine .aliasRef known some_parameter ?_ (describes.denote_formals are_formals fun formal mem =>
    within formal ((mem_partsOf_alias declared_eq).mpr (.inl mem))) body_denotes
  exact describes.store_eq ▸ body_eq

theorem suits (describes : context.Describes heap type) (within : context.Within type part) :
    part.AllReferences (context.Suits heap (context.declaredBody heap)) :=
  describes.suits_of_ready within fun _ mem => describes.ready (within.reaches mem)

/-- What is reached shows what its symbol means. -/
theorem denotes (describes : context.Describes heap type) (within : context.Within type part) :
    (context.scope heap).Denotes part
      (part.symbol.tree (context.meaning (context.declaredBody heap))) :=
  describes.denotes_of_ready within fun _ mem => describes.ready (within.reaches mem)

/-- The body of a declared alias is what its symbol means. -/
theorem declaredBody_eq (describes : context.Describes heap type)
    (reaches : context.Reaches type (.aliasRef name)) {declared : AliasRef Ty} {body : Ty}
    (declared_eq : context.registry.lookupAlias? name = some declared)
    (body_eq : context.store.body? declared = some body) :
    context.declaredBody heap name =
      body.symbol.tree (context.meaning (context.declaredBody heap)) :=
  Context.declaredBody_eq declared_eq body_eq (describes.denotes
    (.inr ⟨_, reaches, (mem_partsOf_alias declared_eq).mpr (.inr body_eq)⟩))

end Describes

end Context

/-! Lists of pairs: a data type with a parameter which mentions itself, applied to an alias with a
parameter of its own. -/

namespace Listing

def element : Ty := .parameter "T" (.prim .value)

def list : DataRef Ty := ⟨0, "List", [element]⟩

def empty : Constructor Ty := ⟨1, list, "empty", [], ∅⟩

def more : Constructor Ty :=
  ⟨2, list, "more", [⟨some "head", element⟩, ⟨none, .dataRef list⟩], ∅⟩

def pair : AliasRef Ty := ⟨0, "Pair", [element]⟩

def pairOfInts : AliasRef Ty := ⟨1, "Pair", [.prim .int]⟩

def pairBody (type : Ty) : Ty := .tuple [⟨none, type⟩, ⟨none, type⟩]

/-- The type which is described. -/
def listOfPairs : Ty := .dataRef ⟨3, "List", [.aliasRef pairOfInts]⟩

def context : Context where
  store := ⟨4, #[some (pairBody element), some (pairBody (.prim .int))]⟩
  registry :=
    { own := {
        declarations := ⟨[("List", .dataRef list), ("Pair", .aliasRef pair)], by decide⟩
        constructors := ⟨[("List", [empty, more])], by decide⟩ } }

def heap : Heap :=
  .of context.store [listOfPairs, .aliasRef pairOfInts, .dataRef list, .aliasRef pair,
      .constructor empty, .constructor more]
    (by simp [Ty.isSameObject, listOfPairs, pairOfInts, pair, list, empty, more])
    (by simp [Store.HasMade, context, listOfPairs, pairOfInts, pair, list, empty, more])
    (by simp [Ty.references, Ty.referencesOfAll, Ty.referencesOfFields, Store.behind, Store.body?,
      context, listOfPairs, pairOfInts, pairBody, pair, list, empty, more, element])

theorem reaches_iff {mention : Mention} : context.Reaches listOfPairs mention ↔
    mention = .dataRef "List" ∨ mention = .aliasRef "Pair" := by
  constructor
  · intro reaches
    have closed : mention ∈ [.dataRef "List", .aliasRef "Pair"] :=
      reaches.mem_of_closed (by decide) (by decide)
    simpa using closed
  · rintro (rfl | rfl)
    · exact ⟨_, List.mem_of_elem_eq_true rfl, .refl⟩
    · exact ⟨_, List.mem_of_elem_eq_true rfl, .refl⟩

theorem agrees {reference : Ty}
    (mem : reference ∈ [listOfPairs, .aliasRef pairOfInts, .dataRef list]) :
    context.Agrees reference := by
  simp only [List.mem_cons, List.not_mem_nil, or_false] at mem
  obtain rfl | rfl | rfl := mem
  · rintro declared ⟨⟩
    rfl
  · rintro declared ⟨⟩
    exact ⟨rfl, (rfl : _ = _)⟩
  · rintro declared ⟨⟩
    rfl

theorem agrees_of_within {part : Ty} (within : context.Within listOfPairs part) :
    part.AllReferences context.Agrees := by
  obtain rfl | ⟨mention, reaches, mem⟩ := within
  · intro reference mem
    change reference ∈ [listOfPairs, .aliasRef pairOfInts] at mem
    obtain rfl | rfl := List.mem_pair.mp mem <;> exact agrees (by simp)
  · obtain rfl | rfl := reaches_iff.mp reaches
    · change part ∈ [element, element, .dataRef list] at mem
      simp only [List.mem_cons, List.not_mem_nil, or_false] at mem
      obtain rfl | rfl | rfl := mem
      · exact fun reference mem => absurd mem List.not_mem_nil
      · exact fun reference mem => absurd mem List.not_mem_nil
      · intro reference mem
        change reference ∈ [.dataRef list] at mem
        obtain rfl := List.mem_singleton.mp mem
        exact agrees (by simp)
    · change part ∈ [element, pairBody element] at mem
      obtain rfl | rfl := List.mem_pair.mp mem
      · exact fun reference mem => absurd mem List.not_mem_nil
      · exact fun reference mem => absurd mem List.not_mem_nil

theorem uses_pair (next : Mention) : ¬context.Uses (.aliasRef "Pair") next := by
  rintro ⟨part, part_mem, mem⟩
  change part ∈ [element, pairBody element] at part_mem
  obtain rfl | rfl := List.mem_pair.mp part_mem
  · exact absurd mem List.not_mem_nil
  · exact absurd mem List.not_mem_nil

theorem describes : context.Describes heap listOfPairs where
  store_eq := rfl
  holds := by simp [heap, Heap.of, listOfPairs]
  agrees := agrees_of_within
  one_kind reaches other_reaches name_eq := by
    obtain rfl | rfl := reaches_iff.mp reaches <;> obtain rfl | rfl := reaches_iff.mp other_reaches
    all_goals simp_all [Mention.name]
  data reaches := by
    obtain data | alias_ := reaches_iff.mp reaches
    case inr => cases alias_
    cases data
    exact ⟨list, rfl, rfl, by simp [heap, Heap.of], [("T", .prim .value)], by simp,
      rfl, by simp [Symbol.Names, Ty.symbol, Symbol.mentions]⟩
  constructors reaches declared_eq mem := by
    obtain data | alias_ := reaches_iff.mp reaches
    case inr => cases alias_
    cases data
    cases declared_eq
    obtain rfl | rfl := List.mem_pair.mp mem <;> exact ⟨by simp [heap, Heap.of], rfl⟩
  alias_ reaches := by
    obtain data | alias_ := reaches_iff.mp reaches
    case inl => cases data
    cases alias_
    exact ⟨pair, pairBody element, rfl, rfl, by simp [heap, Heap.of], ⟨[("T", .prim .value)],
      by simp, rfl, by simp [Symbol.Names, Ty.symbol, Symbol.mentions]⟩, rfl⟩
  acyclic reaches _ _ cycle := by
    obtain data | alias_ := reaches_iff.mp reaches
    case inl => cases data
    cases alias_
    obtain ⟨_, uses, -⟩ := Relation.TransGen.head'_iff.mp cycle
    exact uses_pair _ uses

end Listing

end Reify

end Reification
