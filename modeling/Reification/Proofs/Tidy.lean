import Reification.Proofs.Growth
import Reification.Proofs.Mentions
import Reification.Proofs.Parts

/-!
# Tidy worlds

While types are reconstructed, every reference to a name without formal parameters is the declared
object itself, and the body of every alias is known unless the alias is being reconstructed.  A world
is tidy if this holds of everything which is kept in it.

An alias whose body is being reconstructed is met only within that body.  If it has formal
parameters, a copy for other parameters may then be made, whose body stays unknown.
-/

namespace Reification

namespace Registry

/-- Whether some names are inserted into the declarations one after another, each of them while it is
not declared. -/
inductive Inserts : Registry → List String → Registry → Prop
  | done {before after : Registry}
      (declarations_eq : after.own.declarations = before.own.declarations)
      (inherited_eq : after.inherited = before.inherited) : Inserts before [] after
  | insert {before middle after : Registry} {name : String} {type : Ty} {names : List String}
      (undeclared : before.lookup? name = none)
      (declarations_eq : middle.own.declarations = before.own.declarations.insert name type)
      (inherited_eq : middle.inherited = before.inherited) (rest : Inserts middle names after) :
      Inserts before (name :: names) after

variable {before middle after : Registry} {names more : List String} {name : String} {type : Ty}

theorem lookup?_congr (declarations_eq : after.own.declarations = before.own.declarations)
    (inherited_eq : after.inherited = before.inherited) (name : String) :
    after.lookup? name = before.lookup? name := by
  simp only [lookup?, layers, List.findSome?_cons, declarations_eq, inherited_eq]

theorem lookup?_of_insert
    (declarations_eq : after.own.declarations = before.own.declarations.insert name type)
    (inherited_eq : after.inherited = before.inherited) (other : String) :
    after.lookup? other = if other = name then some type else before.lookup? other := by
  rw [← lookup?_insert]
  refine lookup?_congr ?_ ?_ other
  · exact declarations_eq
  · exact inherited_eq

namespace Inserts

theorem refl (registry : Registry) : registry.Inserts [] registry := .done rfl rfl

theorem trans (first : before.Inserts names middle) (second : middle.Inserts more after) :
    before.Inserts (names ++ more) after := by
  induction first with
  | @done before middle declarations_eq inherited_eq =>
    cases second with
    | done declarations_eq' inherited_eq' =>
      exact .done (declarations_eq'.trans declarations_eq) (inherited_eq'.trans inherited_eq)
    | insert undeclared declarations_eq' inherited_eq' rest =>
      refine .insert ?_ (declarations_eq ▸ declarations_eq') (inherited_eq'.trans inherited_eq) rest
      rwa [← lookup?_congr declarations_eq inherited_eq]
  | insert undeclared declarations_eq inherited_eq _ ih =>
    exact .insert undeclared declarations_eq inherited_eq (ih second)

theorem single (undeclared : before.lookup? name = none)
    (declarations_eq : after.own.declarations = before.own.declarations.insert name type)
    (inherited_eq : after.inherited = before.inherited) : before.Inserts [name] after :=
  .insert undeclared declarations_eq inherited_eq (refl after)

/-- A change to the rest of the registry inserts nothing. -/
theorem of_done (inserts : before.Inserts names middle)
    (declarations_eq : after.own.declarations = middle.own.declarations)
    (inherited_eq : after.inherited = middle.inherited) : before.Inserts names after :=
  List.append_nil names ▸ inserts.trans (.done declarations_eq inherited_eq)

/-- What is declared stays declared. -/
theorem lookup?_eq (inserts : before.Inserts names after)
    (declared : before.lookup? name = some type) : after.lookup? name = some type := by
  induction inserts with
  | done declarations_eq inherited_eq => rwa [lookup?_congr declarations_eq inherited_eq]
  | @insert before middle after other _ _ undeclared declarations_eq inherited_eq _ ih =>
    refine ih ?_
    have distinct : name ≠ other := by
      rintro rfl
      simp [undeclared] at declared
    rwa [lookup?_of_insert declarations_eq inherited_eq, if_neg distinct]

/-- A name which is inserted was not declared before. -/
theorem undeclared_of_mem (inserts : before.Inserts names after) (mem : name ∈ names) :
    before.lookup? name = none := by
  induction inserts with
  | done => cases mem
  | insert undeclared declarations_eq inherited_eq _ ih =>
    rcases List.mem_cons.mp mem with rfl | mem
    · exact undeclared
    · have free := ih mem
      rw [lookup?_of_insert declarations_eq inherited_eq] at free
      split at free
      · cases free
      · exact free

/-- The names which are declared in the end were declared before or are inserted. -/
theorem declared_iff (inserts : before.Inserts names after) :
    after.lookup? name ≠ none ↔ before.lookup? name ≠ none ∨ name ∈ names := by
  induction inserts with
  | done declarations_eq inherited_eq =>
    rw [lookup?_congr declarations_eq inherited_eq]
    simp only [List.not_mem_nil, or_false]
  | @insert before middle after other _ names _ declarations_eq inherited_eq _ ih =>
    rw [ih, lookup?_of_insert declarations_eq inherited_eq, List.mem_cons]
    by_cases same : name = other
    · simp only [same, if_true, ne_eq, reduceCtorEq, not_false_eq_true, true_or, or_true]
    · simp only [same, if_false, false_or]

/-- No name is inserted twice. -/
theorem nodup (inserts : before.Inserts names after) : names.Nodup := by
  induction inserts with
  | done => exact List.nodup_nil
  | insert _ declarations_eq inherited_eq rest ih =>
    refine List.nodup_cons.mpr ⟨fun mem => ?_, ih⟩
    have free := rest.undeclared_of_mem mem
    simp [lookup?_of_insert declarations_eq inherited_eq] at free

end Inserts

end Registry

/-- A world after some names have been declared and some bodies have become known. -/
structure World.Retains (before after : World) : Prop where
  inserts : ∃ names, before.registry.Inserts names after.registry
  known : ∀ ⦃reference⦄, before.store.body? reference ≠ none → after.store.body? reference ≠ none

namespace World.Retains

variable {before middle after : World}

theorem refl (world : World) : world.Retains world := ⟨⟨[], .refl _⟩, fun _ => id⟩

theorem trans (first : before.Retains middle) (second : middle.Retains after) :
    before.Retains after := by
  obtain ⟨names, inserts⟩ := first.inserts
  obtain ⟨more, inserts_more⟩ := second.inserts
  exact ⟨⟨names ++ more, inserts.trans inserts_more⟩, fun _ known => second.known (first.known known)⟩

theorem lookup?_eq (retains : before.Retains after) {name : String} {type : Ty}
    (declared : before.registry.lookup? name = some type) :
    after.registry.lookup? name = some type := by
  obtain ⟨_, inserts⟩ := retains.inserts
  exact inserts.lookup?_eq declared

theorem declared (retains : before.Retains after) {name : String}
    (declared : before.registry.lookup? name ≠ none) : after.registry.lookup? name ≠ none := by
  obtain ⟨type, lookup_eq⟩ := Option.ne_none_iff_exists'.mp declared
  simp [retains.lookup?_eq lookup_eq]

theorem of_store {store : Store}
    (known : ∀ reference, before.store.body? reference ≠ none → store.body? reference ≠ none) :
    before.Retains { before with store } := ⟨⟨[], .refl _⟩, known⟩

/-- A change to the rest of the registry. -/
theorem of_registry {registry : Registry}
    (declarations_eq : registry.own.declarations = before.registry.own.declarations)
    (inherited_eq : registry.inherited = before.registry.inherited) :
    before.Retains { before with registry } :=
  ⟨⟨[], .done declarations_eq inherited_eq⟩, fun _ => id⟩

end World.Retains

/-- Whether the type of a symbol may refer to the declaration of a name, or to none. -/
def Symbol.Suits : Symbol → Option String → Prop
  | .label _ inner, name => inner.Suits name
  | .dataRef other _, name | .aliasRef other _, name | .sort other, name => name = some other
  | .constructor owner _ _, name =>
    -- An owner without a name is called by its text.
    ∃ type : Ty, owner.Suits type.name? ∧ name = some (type.name?.getD type.display)
  | _, name => name = none

namespace Reconstruct

/-- Whether the formal parameters of a name mention another one. -/
def Requires (resolve : Resolver) (name other : String) : Prop :=
  ∃ formal ∈ formalsOf resolve name, formal.Names other

/-- Whether the body of an alias, or the fields of a data type, reach a name. -/
def Encloses (resolve : Resolver) (name other : String) : Prop :=
  ∃ symbol ∈ contentsOf resolve name, Reaches resolve symbol other

/-- Whether a symbol stands for a data type. -/
def IsData (resolve : Resolver) (symbol : Symbol) : Prop :=
  ∃ name parameters, (symbol.withoutLabels = .dataRef name parameters ∨
    symbol.withoutLabels = .aliasRef name parameters) ∧ ¬IsAlias resolve name

theorem isData_dataRef {resolve : Resolver} {name : String} {parameters : List Symbol} :
    IsData resolve (.dataRef name parameters) ↔ ¬IsAlias resolve name := by
  simp [IsData, Symbol.withoutLabels]

theorem isData_aliasRef {resolve : Resolver} {name : String} {parameters : List Symbol} :
    IsData resolve (.aliasRef name parameters) ↔ ¬IsAlias resolve name := by
  simp [IsData, Symbol.withoutLabels]

/-- Whether aliases have no formal parameters, and those of data types do not lead in cycles. -/
structure Terminating (resolve : Resolver) : Prop where
  formals_eq_nil : ∀ name, IsAlias resolve name → formalsOf resolve name = []
  acyclic : ∀ name, ¬Relation.TransGen (Requires resolve) name name

/-- What a reconstruction goes by. -/
structure Setting where
  resolve : Resolver
  /-- The names of owners which may have been made up, with those of their constructors. -/
  exempt : String → String → Prop
  /-- The aliases whose bodies are being reconstructed. -/
  pending : String → Prop

namespace Setting

variable (setting : Setting)

/-- Whether a node is the declared object of its name, if that has no formal parameters. -/
def Canonical (registry : Registry) (name : String) (node : Ty) : Prop :=
  (setting.resolve name).first? = none ∨ ∃ declared, registry.lookup? name = some declared ∧
    (declared.parameters = [] → node = declared)

/-- Whether a node is the declared object of its name; the owner of a constructor may have been made
up. -/
def Identified (registry : Registry) : Ty → Prop
  | .dataRef reference => setting.Canonical registry reference.name (.dataRef reference)
  | .aliasRef reference => IsAlias setting.resolve reference.name ∧
      setting.Canonical registry reference.name (.aliasRef reference)
  | .constructor reference =>
      setting.Canonical registry reference.owner.name (.dataRef reference.owner) ∨
        setting.exempt reference.owner.name reference.name
  | _ => True

/-- Whether an alias has formal parameters and is reached from its own body. -/
def Recurs (name : String) : Prop :=
  formalsOf setting.resolve name ≠ [] ∧ Encloses setting.resolve name name

/-- Whether the body of an alias is known, or else why it is not. -/
def Supplied (world : World) (reference : AliasRef Ty) : Prop :=
  world.store.body? reference ≠ none ∨
    world.registry.lookup? reference.name = some (.aliasRef reference) ∧
      setting.pending reference.name ∧ Encloses setting.resolve reference.name reference.name ∨
    reference.parameters ≠ [] ∧ setting.Recurs reference.name

/-- Whether a node may occur in a type. -/
def Accepts (world : World) (node : Ty) : Prop :=
  setting.Identified world.registry node ∧
    ∀ reference, node = .aliasRef reference → setting.Supplied world reference

/-- Whether a type is declared as the alternatives of its name tell. -/
structure Registered (world : World) (name : String) (type : Ty) : Prop where
  resolved : (setting.resolve name).first? ≠ none
  length_eq : type.parameters.length = (formalsOf setting.resolve name).length
  parameters : ∀ part ∈ type.parameters, part.All (setting.Accepts world)
  kind : (∃ reference, type = .dataRef reference ∧ reference.name = name ∧
      ¬IsAlias setting.resolve name) ∨
    ∃ reference, type = .aliasRef reference ∧ reference.name = name ∧
      IsAlias setting.resolve name ∧
        (world.store.body? reference ≠ none ∨ setting.pending name)

/-- Whether everything in a world is as it should be. -/
structure Tidy (world : World) : Prop where
  inherited_eq : world.registry.inherited = []
  declared : ∀ ⦃name type⦄, world.registry.lookup? name = some type →
    setting.Registered world name type
  constructors : ∀ ⦃name constructor⦄,
    constructor ∈ world.registry.own.constructorsOf name → constructor.owner.name = name ∧
      setting.Canonical world.registry name (.dataRef constructor.owner) ∧
        (Ty.constructor constructor).All (setting.Accepts world)
  bodies : ∀ ⦃reference body⦄, world.store.body? reference = some body →
    body.All (setting.Accepts world)

variable {setting} {world before after : World} {name : String} {node : Ty}

/-- A node with parameters is as good as any other one of its name. -/
theorem Canonical.copy {registry : Registry} (canonical : setting.Canonical registry name node)
    (some_parameter : node.parameters ≠ []) (other : Ty) :
    setting.Canonical registry name other := by
  refine canonical.imp_right fun ⟨declared, lookup_eq, same⟩ => ⟨declared, lookup_eq, fun none => ?_⟩
  obtain rfl := same none
  exact absurd none some_parameter

theorem Canonical.mono (canonical : setting.Canonical before.registry name node)
    (retains : before.Retains after) : setting.Canonical after.registry name node :=
  canonical.imp_right fun ⟨declared, lookup_eq, same⟩ =>
    ⟨declared, retains.lookup?_eq lookup_eq, same⟩

theorem Supplied.mono {reference : AliasRef Ty} (supplied : setting.Supplied before reference)
    (retains : before.Retains after) : setting.Supplied after reference :=
  supplied.imp (retains.known ·) (.imp_left (.imp_left (retains.lookup?_eq ·)))

theorem Accepts.mono (accepts : setting.Accepts before node) (retains : before.Retains after) :
    setting.Accepts after node := by
  refine ⟨?_, fun reference node_eq => (accepts.2 reference node_eq).mono retains⟩
  have identified := accepts.1
  cases node with
  | dataRef => exact Canonical.mono identified retains
  | aliasRef => exact ⟨identified.1, Canonical.mono identified.2 retains⟩
  | constructor => exact identified.imp_left (Canonical.mono · retains)
  | _ => trivial

theorem all_mono {type : Ty} (all : type.All (setting.Accepts before))
    (retains : before.Retains after) : type.All (setting.Accepts after) :=
  all.imp fun _ accepts => accepts.mono retains

/-- A type which is no alias may occur if its parts may and it is the declared object of its name. -/
theorem all_of_children {type : Ty} (identified : setting.Identified world.registry type)
    (no_alias : ∀ reference, type ≠ .aliasRef reference)
    (children : ∀ part ∈ type.children, part.All (setting.Accepts world)) :
    type.All (setting.Accepts world) :=
  Ty.all_iff.mpr ⟨⟨identified, fun reference type_eq => absurd type_eq (no_alias reference)⟩, children⟩

theorem Registered.mono {type : Ty} (registered : setting.Registered before name type)
    (retains : before.Retains after) : setting.Registered after name type where
  resolved := registered.resolved
  length_eq := registered.length_eq
  parameters part mem := all_mono (registered.parameters part mem) retains
  kind := registered.kind.imp_right fun ⟨reference, type_eq, name_eq, is_alias, known⟩ =>
    ⟨reference, type_eq, name_eq, is_alias, known.imp_left (retains.known ·)⟩

/-- An alias with parameters occurs only if formal parameters may lead in cycles. -/
theorem Accepts.not_terminating {reference : AliasRef Ty} (tidy : setting.Tidy world)
    (accepts : setting.Accepts world (.aliasRef reference))
    (some_parameter : reference.parameters ≠ []) : ¬Terminating setting.resolve := by
  intro terminating
  obtain ⟨is_alias, none | ⟨declared, lookup_eq, same⟩⟩ := accepts.1
  · exact first?_of_isAlias is_alias none
  · have length_eq := (tidy.declared lookup_eq).length_eq
    rw [terminating.formals_eq_nil _ is_alias] at length_eq
    obtain rfl := same (List.length_eq_zero_iff.mp length_eq)
    exact some_parameter (List.length_eq_zero_iff.mp length_eq)

/-- Aliases are determined by their names if none has formal parameters. -/
theorem Accepts.unique (tidy : setting.Tidy world) (terminating : Terminating setting.resolve)
    {left right : AliasRef Ty} (left_accepts : setting.Accepts world (.aliasRef left))
    (right_accepts : setting.Accepts world (.aliasRef right)) (name_eq : left.name = right.name) :
    left = right := by
  have is_declared {reference : AliasRef Ty} (accepts : setting.Accepts world (.aliasRef reference)) :
      world.registry.lookup? reference.name = some (.aliasRef reference) := by
    obtain ⟨is_alias, none | ⟨declared, lookup_eq, same⟩⟩ := accepts.1
    · exact absurd none (first?_of_isAlias is_alias)
    · have length_eq := (tidy.declared lookup_eq).length_eq
      rw [terminating.formals_eq_nil _ is_alias] at length_eq
      rw [lookup_eq, same (List.length_eq_zero_iff.mp length_eq)]
  have left_eq := is_declared left_accepts
  rw [name_eq, is_declared right_accepts] at left_eq
  exact (Ty.aliasRef.inj (Option.some.inj left_eq)).symm

/-- Comparing types in a tidy world ends if no alias has formal parameters. -/
theorem sameWith_ne_none {f : AliasRef Ty → AliasRef Ty → Option Bool} (tidy : setting.Tidy world)
    (terminating : Terminating setting.resolve) {left right : Ty}
    (left_all : left.All (setting.Accepts world)) (right_all : right.All (setting.Accepts world)) :
    left.sameWith f right ≠ none :=
  Ty.sameWith_ne_none (fun _ _ => Accepts.unique tidy terminating)
    (left_all.allAliases fun _ => id) (right_all.allAliases fun _ => id)

end Setting

end Reconstruct

end Reification
