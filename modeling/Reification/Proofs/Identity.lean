import Reification.Proofs.Preservation

/-!
# Identity of declared references

A name is declared only after its formal parameters have been reconstructed.  Unless these lead back
to the name, it is not declared meanwhile: an expansion returns the very object which it declares, and
every constructor belongs to that object.  Otherwise the name is declared within its own expansion,
which then returns another object.
-/

namespace Reification

theorem Ty.RefersTo.isSameObject_self {name : String} {type : Ty} (refersTo : type.RefersTo name) :
    type.isSameObject type = true := by
  cases type with
  | dataRef | aliasRef => simp [isSameObject]
  | _ => cases refersTo

namespace Reconstruct

open Building

variable {resolve : Resolver} {world after : World} {heap : Heap} {name : String} {depth : Nat}

section Owned

/-- Whether all constructors belong to data types of their names with as many parameters as the name
has formal ones: to the declared objects, if the formal parameters do not lead back to the name. -/
structure Owned (resolve : Resolver) (world : World) : Prop where
  length_eq : ∀ ⦃name⦄, ∀ constructor ∈ world.registry.own.constructorsOf name,
    constructor.owner.parameters.length = (formalsOf resolve name).length
  lookup?_eq : ∀ ⦃name⦄, ¬ReachesItself resolve name →
    ∀ constructor ∈ world.registry.own.constructorsOf name,
      world.registry.lookup? name = some (.dataRef constructor.owner)

/-- Whether, in addition, a data type is declared, as itself unless its formal parameters lead back to
it. -/
structure Owns (resolve : Resolver) (owner : DataRef Ty) (world : World) : Prop
    extends Owned resolve world where
  owner_length_eq : owner.parameters.length = (formalsOf resolve owner.name).length
  claimed : Claimed resolve world owner.name (.dataRef owner)

theorem owned_fresh (resolve : Resolver) : Owned resolve {} where
  length_eq _ _ mem := nomatch mem
  lookup?_eq _ _ _ mem := nomatch mem

theorem makes_owned ⦃world : World⦄ ⦃store : Store⦄ (_ : world.store.Grows store)
    (owned : Owned resolve world) : Owned resolve { world with store } :=
  ⟨owned.length_eq, owned.lookup?_eq⟩

theorem makes_owns {owner : DataRef Ty} ⦃world : World⦄ ⦃store : Store⦄
    (_ : world.store.Grows store) (owns : Owns resolve owner world) :
    Owns resolve owner { world with store } :=
  ⟨⟨owns.length_eq, owns.lookup?_eq⟩, owns.owner_length_eq, owns.claimed⟩

theorem sortWith_owned (name : String) : Maintains (Owned resolve) (sortWith resolve name) := by
  unfold sortWith
  split
  · refine maintains_register fun world registry owned changed => ?_
    obtain rfl := Except.ok.inj changed
    exact ⟨owned.length_eq, owned.lookup?_eq⟩
  · exact maintains_pure ()

/-- What is declared stays declared. -/
theorem maintains_owns {α : Type} {building : Building α} {owner : DataRef Ty}
    (inserts : building.InsertsOnce) (owned : Maintains (Owned resolve) building) :
    Maintains (Owns resolve owner) building := by
  rintro world ⟨all_owned, length_eq, claimed⟩
  have stays {name : String} {type : Ty} (lookup_eq : world.registry.lookup? name = some type) :
      (building.run.run world).2.registry.lookup? name = some type :=
    inserts.lookup?_eq Prod.mk.eta.symm lookup_eq
  refine ⟨owned all_owned, length_eq, claimed.imp stays fun repeated => ⟨?_, repeated.2⟩⟩
  obtain ⟨type, lookup_eq⟩ := Option.ne_none_iff_exists'.mp repeated.1
  exact ne_of_eq_of_ne (stays lookup_eq) nofun

/-- A name is declared as itself, or it has been declared before. -/
theorem declare_owned (owned : Owned resolve world) {type : Ty} {registry : Registry}
    (repeated : world.registry.lookup? name ≠ none → ReachesItself resolve name)
    (declare_eq : world.registry.declare world.store name type = .ok registry) :
    Owned resolve { world with registry } ∧ Claimed resolve { world with registry } name type := by
  obtain ⟨undeclared, rfl⟩ | ⟨⟨existing, lookup_eq, -⟩, rfl⟩ := Registry.declare_inv declare_eq
  · refine ⟨⟨owned.length_eq, fun other single constructor mem => ?_⟩, .inl ?_⟩
    · have lookup_eq := owned.lookup?_eq single constructor mem
      have distinct : other ≠ name := by
        rintro rfl
        simp [undeclared] at lookup_eq
      rw [Registry.lookup?_insert, if_neg distinct, lookup_eq]
    · rw [Registry.lookup?_insert, if_pos rfl]
  · have declared : world.registry.lookup? name ≠ none := by simp [lookup_eq]
    exact ⟨owned, .inr ⟨declared, repeated declared⟩⟩

theorem declareConstructor_owns {owner : DataRef Ty} {constructor : Constructor Ty}
    (owner_eq : constructor.owner = owner) :
    Maintains (Owns resolve owner) (register (·.declareConstructor · constructor)) := by
  subst owner_eq
  refine maintains_register fun world registry owns declare_eq => ?_
  obtain ⟨owned, owner_length_eq, claimed⟩ := owns
  obtain ⟨declared, _, declared_eq, -, constructors_eq⟩ := Registry.declareConstructor_inv declare_eq
  obtain ⟨undeclared, -⟩ | ⟨-, rfl⟩ := Registry.declare_inv declared_eq
  · exact absurd undeclared claimed.declared
  obtain ⟨-, rfl⟩ | ⟨-, rfl⟩ := constructors_eq
  · exact ⟨owned, owner_length_eq, claimed⟩
  · refine ⟨⟨fun other known mem => ?_, fun other single known mem => ?_⟩, owner_length_eq, claimed⟩
    · obtain mem | ⟨rfl, rfl⟩ := Layer.mem_constructorsOf_append.mp mem
      · exact owned.length_eq known mem
      · exact owner_length_eq
    · obtain mem | ⟨rfl, rfl⟩ := Layer.mem_constructorsOf_append.mp mem
      · exact owned.lookup?_eq single known mem
      · exact claimed.resolve_right fun repeated => single repeated.2

theorem declareData_owned {fieldsOf : List Symbol → Building (List (Field Ty))}
    (fields_insert : ∀ symbols, (fieldsOf symbols).InsertsOnce)
    (fields : ∀ symbols, Maintains (Owned resolve) (fieldsOf symbols))
    (repeated : world.registry.lookup? name ≠ none → ReachesItself resolve name)
    (owned : Owned resolve world) {formals : List Ty}
    (length_eq : formals.length = (formalsOf resolve name).length)
    (alternatives : OrderedSet Production) :
    Owned resolve ((declareData fieldsOf name formals alternatives).run.run world).2 := by
  have made_owned := makes_owned (.makeData name formals) owned
  rw [declareData, run_bind, run_make, Making.run_newData]
  refine holds_of_register_bind made_owned fun registry declare_eq => ?_
  obtain ⟨owned, claimed⟩ := declare_owned made_owned repeated declare_eq
  have owns : Owns resolve (world.store.makeData name formals).1 _ := ⟨owned, length_eq, claimed⟩
  exact ((declareConstructors_maintains makes_owns
    (fun symbols => maintains_owns (fields_insert symbols) (fields symbols))
    (fun _ => declareConstructor_owns) _).bind fun _ => maintains_pure _) owns |>.toOwned

theorem declareAlias_owned {typeOf : Symbol → Building Ty}
    (types : ∀ symbol, Maintains (Owned resolve) (typeOf symbol))
    (repeated : world.registry.lookup? name ≠ none → ReachesItself resolve name)
    (owned : Owned resolve world) (formals : List Ty) (alternatives : OrderedSet Production) :
    Owned resolve ((declareAlias typeOf name formals alternatives).run.run world).2 := by
  have fills (declared : AliasRef Ty) (body : Ty) :
      Maintains (Owned resolve) (fillSlot name declared body) := by
    refine maintains_get_bind fun opened owned => ?_
    split <;> exact ⟨owned.length_eq, owned.lookup?_eq⟩
  have made_owned := makes_owned (.makeAlias name formals none) owned
  rw [declareAlias_eq, run_bind, run_make, Making.run_newAlias]
  refine holds_of_register_bind made_owned fun registry declare_eq => ?_
  exact ((bodyType_maintains types _).bind fun body => (fills _ body).bind fun _ => maintains_pure _)
    (declare_owned made_owned repeated declare_eq).1

/-- A name whose formal parameters have been reconstructed is declared only if they lead back to it. -/
theorem repeated_of_formals {formals : List Ty}
    (run_eq : (typesWithin resolve depth (formalsOf resolve name)).run.run world =
      (.ok formals, after)) (undeclared : world.registry.lookup? name = none)
    (declared : after.registry.lookup? name ≠ none) : ReachesItself resolve name := by
  have keeps : Keeps resolve (fun other => ∃ formal ∈ formalsOf resolve name,
      Reaches resolve formal other) (Symbol.mentionsOfAll (formalsOf resolve name))
      (typesWithin resolve depth (formalsOf resolve name)) world :=
    typesWith_keeps fun formal mem world =>
      (typeWithin_keeps depth formal world).mono fun _ reaches => ⟨formal, mem, reaches⟩
  obtain ⟨advances, -⟩ := (meets_iff_of_run_eq_ok run_eq).mp keeps
  exact advances.names_of_new undeclared declared

theorem length_of_typesWithin {symbols : List Symbol} {types : List Ty}
    (run_eq : (typesWithin resolve depth symbols).run.run world = (.ok types, after)) :
    types.length = symbols.length := by
  induction symbols generalizing types world with
  | nil =>
    cases run_eq
    rfl
  | cons symbol symbols ih =>
    rw [typesWithin, typesWith] at run_eq
    obtain ⟨type, middle, -, run_eq⟩ := exists_of_run_bind run_eq
    obtain ⟨rest, last, rest_eq, run_eq⟩ := exists_of_run_bind run_eq
    cases run_eq
    rw [List.length_cons, List.length_cons, ih rest_eq]

theorem fieldsWithin_insertsOnce (symbols : List Symbol) :
    (fieldsWithin resolve depth symbols).InsertsOnce :=
  fieldsWith_closed closed_insertsOnce fun symbol _ => typeWithin_insertsOnce depth symbol

theorem expandWithin_owned (depth : Nat) ⦃world : World⦄ ⦃name : String⦄ ⦃production : Production⦄
    (owned : Owned resolve world) (undeclared : world.registry.lookup? name = none)
    (first_eq : (resolve name).first? = some production) :
    Owned resolve ((expandWithin resolve depth name production.subject).run.run world).2 := by
  induction depth generalizing world name production with
  | zero => exact owned
  | succ depth ih =>
    have formals_owned :=
      typesWithin_maintains makes_owned sortWith_owned ih (formalsOf resolve name) owned
    rw [expandWithin_eq first_eq, run_bind]
    rcases formals_eq : (typesWithin resolve depth (formalsOf resolve name)).run.run world with
      ⟨failure | formals, after⟩
    · simpa only [formals_eq] using formals_owned
    · rw [formals_eq] at formals_owned
      have repeated := repeated_of_formals formals_eq undeclared
      have declared : Owned resolve ((declareFor resolve depth name formals).run.run after).2 := by
        unfold declareFor
        split
        · exact declareAlias_owned (typeWithin_maintains makes_owned sortWith_owned ih) repeated
            formals_owned formals _
        · exact declareData_owned fieldsWithin_insertsOnce
            (fieldsWithin_maintains makes_owned sortWith_owned ih) repeated formals_owned
            (length_of_typesWithin formals_eq) _
      exact declared

theorem typeWithin_owned (depth : Nat) (symbol : Symbol) :
    Maintains (Owned resolve) (typeWithin resolve depth symbol) :=
  typeWithin_maintains makes_owned sortWith_owned (expandWithin_owned depth) symbol

end Owned

section Returned

variable {formals actuals : List Ty} {type declared : Ty}

/-- What is declared under a name which is not declared yet is returned in the end. -/
theorem returns_of_declare {rest : Building Unit} (inserts : rest.InsertsOnce)
    (run_eq : (register (·.declare · name declared) >>= fun _ => rest >>= fun _ =>
      pure declared).run.run world = (.ok type, after)) :
    type = declared ∧ (world.registry.lookup? name = none →
      after.registry.lookup? name = some declared) := by
  obtain ⟨_, opened, register_eq, run_eq⟩ := exists_of_run_bind run_eq
  obtain ⟨_, last, rest_eq, run_eq⟩ := exists_of_run_bind run_eq
  cases run_eq
  refine ⟨rfl, fun undeclared => inserts.lookup?_eq rest_eq ?_⟩
  rw [run_register, Registry.declare_of_undeclared undeclared] at register_eq
  cases register_eq
  rw [Registry.lookup?_insert, if_pos rfl]

/-- A declaration returns a new object, which is the declared one if the name was not declared. -/
theorem declareFor_returns
    (run_eq : (declareFor resolve depth name formals).run.run world = (.ok type, after)) :
    ¬world.store.HasMade type ∧ (world.registry.lookup? name = none →
      after.registry.lookup? name = some type) := by
  unfold declareFor at run_eq
  split at run_eq
  · rw [declareAlias_eq] at run_eq
    obtain ⟨reference, _, made_eq, run_eq⟩ := exists_of_run_bind run_eq
    rw [run_make, Making.run_newAlias] at made_eq
    cases made_eq
    simp only [← bind_assoc (bodyType _ _)] at run_eq
    obtain ⟨rfl, declared_eq⟩ := returns_of_declare ((bodyType_insertsOnce
      (typeWithin_insertsOnce depth) _).bind fun body => fillSlot_insertsOnce name _ body) run_eq
    exact ⟨Nat.lt_irrefl _, declared_eq⟩
  · rw [declareData] at run_eq
    obtain ⟨reference, _, made_eq, run_eq⟩ := exists_of_run_bind run_eq
    rw [run_make, Making.run_newData] at made_eq
    cases made_eq
    obtain ⟨rfl, declared_eq⟩ := returns_of_declare
      (declareConstructors_insertsOnce fieldsWithin_insertsOnce _ _) run_eq
    exact ⟨Nat.lt_irrefl _, declared_eq⟩

/-- The object which an expansion returns is the declared one, if the formal parameters of the name do
not lead back to it. -/
theorem expandWithin_returns {production : Production}
    (first_eq : (resolve name).first? = some production)
    (undeclared : world.registry.lookup? name = none) (single : ¬ReachesItself resolve name)
    (run_eq : (expandWithin resolve depth name production.subject).run.run world =
      (.ok type, after)) : after.registry.lookup? name = some type := by
  cases depth with
  | zero => cases run_eq
  | succ depth =>
    rw [expandWithin_eq first_eq] at run_eq
    obtain ⟨formals, middle, formals_eq, run_eq⟩ := exists_of_run_bind run_eq
    refine (declareFor_returns run_eq).2 (not_not.mp fun declared => single ?_)
    exact repeated_of_formals formals_eq undeclared declared

theorem declareFor_insertsOnce (formals : List Ty) :
    (declareFor resolve depth name formals).InsertsOnce := by
  unfold declareFor
  split
  · exact declareAlias_insertsOnce (typeWithin_insertsOnce depth) _ _ _
  · exact declareData_insertsOnce fieldsWithin_insertsOnce _ _ _

theorem typeWithin_retraceable (depth : Nat) (symbol : Symbol) : Retraceable resolve
    (namedWith resolve (expandWithin resolve depth)) (sortWith resolve) False symbol :=
  retraceable_of_declares (expandWithin_declares depth) False.elim

theorem typeWithin_retains (carries : heap.Carries world) {symbol : Symbol}
    (run_eq : (typeWithin resolve depth symbol).run.run world = (.ok type, after)) :
    ∃ later : Heap, heap.GrowsTo later ∧ later.Carries after ∧ later.Holds type := by
  obtain ⟨later, growsTo, carries, -, alike, -⟩ :=
    typeWithin_retraceable depth symbol carries run_eq
  exact ⟨later, growsTo, carries, alike.left_holds⟩

theorem typesWithin_retains (carries : heap.Carries world) {symbols : List Symbol} {types : List Ty}
    (run_eq : (typesWithin resolve depth symbols).run.run world = (.ok types, after)) :
    ∃ later : Heap, heap.GrowsTo later ∧ later.Carries after ∧ ∀ type ∈ types, later.Holds type := by
  obtain ⟨later, growsTo, carries, -, alike, -⟩ :=
    typesWith_retraces carries (fun symbol _ => typeWithin_retraceable depth symbol) run_eq
  exact ⟨later, growsTo, carries, (Heap.alikeAll_iff.mp alike).1⟩

theorem hasMade_of_carries (carries : heap.Carries world)
    (lookup_eq : world.registry.lookup? name = some declared) : world.store.HasMade declared := by
  have holds := carries.holds lookup_eq
  have refersTo := carries.refersTo lookup_eq
  rw [← carries.store_eq]
  cases declared with
  | dataRef => exact heap.made ((Heap.holds_dataRef _).mp holds)
  | aliasRef => exact heap.made ((Heap.holds_aliasRef _).mp holds)
  | _ => cases refersTo

/-- If the formal parameters of a name lead back to it, its expansion returns another object than the
declared one. -/
theorem expandWithin_returns_other {production : Production} (carries : heap.Carries world)
    (complete : Complete resolve (fun _ => False) world)
    (first_eq : (resolve name).first? = some production) (repeated : ReachesItself resolve name)
    (run_eq : (expandWithin resolve depth name production.subject).run.run world =
      (.ok type, after)) :
    ∃ declared, after.registry.lookup? name = some declared ∧
      type.isSameObject declared = false := by
  cases depth with
  | zero => cases run_eq
  | succ depth =>
    rw [expandWithin_eq first_eq] at run_eq
    obtain ⟨formals, middle, formals_eq, run_eq⟩ := exists_of_run_bind run_eq
    obtain ⟨formal, formal_mem, reaches⟩ := repeated
    have keeps : Keeps resolve (fun _ => True) (Symbol.mentionsOfAll (formalsOf resolve name))
        (typesWithin resolve depth (formalsOf resolve name)) world :=
      typesWith_keeps fun symbol _ world =>
        (typeWithin_keeps depth symbol world).mono fun _ _ => trivial
    obtain ⟨advances, covered⟩ := (meets_iff_of_run_eq_ok formals_eq).mp keeps
    obtain ⟨existing, lookup_eq⟩ := Option.ne_none_iff_exists'.mp <|
      (advances.complete complete).declared_of_reaches
        (fun mention mem => covered mention (Symbol.mem_mentionsOfAll formal_mem mem)) reaches
        (by simp [first_eq])
    obtain ⟨later, -, later_carries, -⟩ := typesWithin_retains carries formals_eq
    have made := hasMade_of_carries later_carries lookup_eq
    refine ⟨existing, (declareFor_insertsOnce formals).lookup?_eq run_eq lookup_eq, ?_⟩
    rw [Ty.isSameObject_comm]
    exact Bool.eq_false_iff.mpr fun same =>
      (declareFor_returns run_eq).1 (made.of_isSameObject same)

/-- Actual parameters which equal the formal ones give the declared object. -/
theorem applied_returns (carries : heap.Carries world) (holds : heap.Holds declared)
    (hold : ∀ actual ∈ actuals, heap.Holds actual)
    (run_eq : (applied declared actuals).run.run world = (.ok type, after))
    (formal : actuals = [] ∨ after.store.sameAll actuals declared.parameters = some true) :
    type = declared := by
  obtain ⟨later, growsTo, later_carries, -⟩ :=
    @applied_retraces (fun _ => ∅) heap world declared actuals carries holds hold type after run_eq
  have parameters_hold : ∀ parameter ∈ declared.parameters, heap.Holds parameter :=
    (Heap.alikeAll_iff.mp (Heap.Alike.refl holds).parameters).1
  unfold applied at run_eq
  split at run_eq
  · cases run_eq
    rfl
  · next some_actual =>
    have formal := formal.resolve_left (by simpa using some_actual)
    obtain ⟨equal, asked, ask_eq, run_eq⟩ := exists_of_run_bind run_eq
    rw [run_ask] at ask_eq
    split at ask_eq
    · next answer_eq =>
      cases ask_eq
      cases equal with
      | true =>
        cases run_eq
        rfl
      | false =>
        rw [← carries.store_eq] at answer_eq
        have differ := Heap.AlikeAll.sameAll_congr growsTo hold parameters_hold
          ((Heap.AlikeAll.refl hold).mono growsTo) ((Heap.AlikeAll.refl parameters_hold).mono growsTo)
          answer_eq
        rw [later_carries.store_eq, formal] at differ
        cases differ
    · cases ask_eq

theorem applied_insertsOnce (declared : Ty) (actuals : List Ty) :
    (applied declared actuals).InsertsOnce :=
  applied_closed closed_insertsOnce declared actuals

/-- The object which is returned for a name is the declared one, if the formal parameters of the name
do not lead back to it and the actual ones are missing or equal to the formal ones. -/
theorem namedWith_returns (carries : heap.Carries world)
    (hold : ∀ actual ∈ actuals, heap.Holds actual) (single : ¬ReachesItself resolve name)
    (run_eq : (namedWith resolve (expandWithin resolve depth) name actuals).run.run world =
      (.ok type, after)) (lookup_eq : after.registry.lookup? name = some declared)
    (formal : actuals = [] ∨ after.store.sameAll actuals declared.parameters = some true) :
    type = declared := by
  cases known : world.registry.lookup? name with
  | some existing =>
    rw [run_namedWith_declared known] at run_eq
    have stays := (applied_insertsOnce existing actuals).lookup?_eq run_eq known
    obtain rfl := Option.some.inj (stays.symm.trans lookup_eq)
    exact applied_returns carries (carries.holds known) hold run_eq formal
  | none =>
    cases first_eq : (resolve name).first? with
    | some production =>
      rw [run_namedWith_expanded known first_eq] at run_eq
      obtain ⟨existing, middle, expand_eq, run_eq⟩ := exists_of_run_bind run_eq
      have returned := expandWithin_returns first_eq known single expand_eq
      have stays := (applied_insertsOnce existing actuals).lookup?_eq run_eq returned
      obtain rfl := Option.some.inj (stays.symm.trans lookup_eq)
      obtain ⟨later, growsTo, later_carries, -⟩ :=
        expandWithin_declares depth carries known first_eq expand_eq
      exact applied_returns later_carries (later_carries.holds returned)
        (fun actual mem => (hold actual mem).mono growsTo) run_eq formal
    | none =>
      rw [run_namedWith_unknown known first_eq] at run_eq
      cases run_eq
      exact absurd (lookup_eq.symm.trans known) nofun

end Returned

/-- Nothing is declared in a fresh registry. -/
theorem exists_carries_fresh : ∃ heap : Heap, heap.Carries {} :=
  ⟨.of {} [] (by simp) (by simp) (by simp), rfl, nofun, nofun, by
    rintro layer mem name constructor constructor_mem
    obtain rfl := List.mem_singleton.mp mem
    cases constructor_mem⟩

/-- Whether a symbol refers to a name with some actual parameters. -/
def RefersWith (symbol : Symbol) (name : String) (parameters : List Symbol) : Prop :=
  symbol = .dataRef name parameters ∨ symbol = .aliasRef name parameters

theorem RefersWith.typeWithin_eq {symbol : Symbol} {parameters : List Symbol}
    (refersWith : RefersWith symbol name parameters) :
    typeWithin resolve depth symbol = typesWithin resolve depth parameters >>=
      namedWith resolve (expandWithin resolve depth) name := by
  rcases refersWith with rfl | rfl <;> rfl

/-- All constructors of a data type belong to the declared object, if the formal parameters of its
name do not lead back to it. -/
theorem constructors_owned {symbol : Symbol} {type declared : Ty}
    (run_eq : (typeWithin resolve depth symbol).run.run {} = (.ok type, after))
    (lookup_eq : after.registry.lookup? name = some declared) (single : ¬ReachesItself resolve name) :
    ∃ constructors, after.registry.constructorsOf after.store name = some constructors ∧
      ∀ constructor ∈ constructors, .dataRef constructor.owner = declared := by
  have owned := typeWithin_owned depth symbol (owned_fresh resolve)
  have inherited_eq := (typeWithin_preserves depth symbol (.refl {} : World.Preserves resolve _ _))
    |>.inherited_eq
  rw [run_eq] at owned inherited_eq
  refine ⟨_, Registry.constructorsOf_of_inherited_eq inherited_eq _ _, fun constructor mem => ?_⟩
  exact Option.some.inj ((owned.lookup?_eq single constructor mem).symm.trans lookup_eq)

/-- A reference without actual parameters to a name whose formal parameters lead back to it is another
object than the declared one. -/
theorem namedWith_returns_other (carries : heap.Carries {}) (repeated : ReachesItself resolve name)
    {type declared : Ty} (run_eq : (namedWith resolve (expandWithin resolve depth) name []).run.run {} =
      (.ok type, after)) (lookup_eq : after.registry.lookup? name = some declared) :
    type.isSameObject declared = false := by
  obtain ⟨formal, formal_mem, -⟩ := id repeated
  obtain ⟨production, first_eq⟩ := Option.ne_none_iff_exists'.mp <|
    first?_of_mem (List.mem_append_left _ formal_mem)
  rw [run_namedWith_expanded rfl first_eq] at run_eq
  obtain ⟨existing, middle, expand_eq, run_eq⟩ := exists_of_run_bind run_eq
  obtain ⟨other, other_eq, differs⟩ := expandWithin_returns_other carries (complete_fresh _ {})
    first_eq repeated expand_eq
  cases run_eq
  obtain rfl := Option.some.inj (other_eq.symm.trans lookup_eq)
  exact differs

/-- A reference to a name, whose actual parameters are missing or equal to the formal ones, is
reconstructed into a fresh registry as the very object which is declared then, and all constructors
belong to this object, unless the formal parameters of the name lead back to it.  If they do, a
reference without actual parameters is another object than the declared one. -/
theorem reconstruct_declared_object {definitions : Definitions} {symbol : Symbol}
    {parameters : List Symbol} (refersWith : RefersWith symbol name parameters) {type declared : Ty}
    (run_eq : (Reified.reconstruct ⟨symbol, definitions⟩).run.run {} = (.ok type, after))
    (lookup_eq : after.registry.lookup? name = some declared)
    (formal : parameters = [] ∨ ∃ actuals middle,
      (typesWithin definitions.alternativesOf (maxDepth definitions) parameters).run.run {} =
        (.ok actuals, middle) ∧ after.store.sameAll actuals declared.parameters = some true) :
    (¬ReachesItself definitions.alternativesOf name →
      type.isSameObject declared = true ∧
        ∃ constructors, after.registry.constructorsOf after.store name = some constructors ∧
          ∀ constructor ∈ constructors, (Ty.dataRef constructor.owner).isSameObject declared = true) ∧
      (parameters = [] → (type.isSameObject declared = true ↔
        ¬ReachesItself definitions.alternativesOf name)) := by
  obtain ⟨heap, carries⟩ := exists_carries_fresh
  rw [Reified.reconstruct, typeOf] at run_eq
  obtain ⟨last, -, last_carries, -⟩ := typeWithin_retains carries run_eq
  have same_self := (last_carries.refersTo lookup_eq).isSameObject_self
  have constructors_owned := constructors_owned run_eq lookup_eq
  rw [refersWith.typeWithin_eq] at run_eq
  obtain ⟨actuals, middle, actuals_eq, named_eq⟩ := exists_of_run_bind run_eq
  have returned (single : ¬ReachesItself definitions.alternativesOf name) : type = declared := by
    obtain ⟨later, -, later_carries, hold⟩ := typesWithin_retains carries actuals_eq
    refine namedWith_returns later_carries hold single named_eq lookup_eq ?_
    rcases formal with rfl | ⟨others, _, others_eq, equal⟩
    · cases actuals_eq
      exact .inl rfl
    · rw [others_eq] at actuals_eq
      cases actuals_eq
      exact .inr equal
  refine ⟨fun single => ⟨returned single ▸ same_self, ?_⟩, ?_⟩
  · obtain ⟨constructors, constructors_eq, owned⟩ := constructors_owned single
    refine ⟨constructors, constructors_eq, fun constructor mem => ?_⟩
    rw [owned constructor mem, same_self]
  · rintro rfl
    cases actuals_eq
    refine ⟨fun same repeated => ?_, fun single => returned single ▸ same_self⟩
    rw [namedWith_returns_other carries repeated named_eq lookup_eq] at same
    cases same

/-! Trees whose formal parameter has a bound without names, and orders whose formal parameter is bounded
by customers, who have orders. -/

namespace Shop

def element : Symbol := .parameter "T" (.prim .value)

def trees : Definitions where
  entries := [
    ("Tree", {
      subject := .dataRef "Tree" [element]
      alternatives := .ofList [
        { subject := .dataRef "Tree" [element], name := some "leaf", symbols := [element] },
        { subject := .dataRef "Tree" [element]
          name := some "node"
          symbols := [.list (.dataRef "Tree" [element])] }] })]
  increasing := List.pairwise_singleton _ _

theorem tree_single : ¬ReachesItself trees.alternativesOf "Tree" := by
  rintro ⟨formal, mem, first, names, -⟩
  obtain rfl := List.mem_singleton.mp mem
  simp [element] at names

def tree : DataRef Ty := ⟨0, "Tree", [.parameter "T" (.prim .value)]⟩

/-- The world after the reconstruction of a tree whose actual parameter is the formal one. -/
def planted : World :=
  ((Reified.reconstruct ⟨.dataRef "Tree" [element], trees⟩).run.run {}).2

theorem tree_eq : (Reified.reconstruct ⟨.dataRef "Tree" [element], trees⟩).run.run {} =
    (.ok (.dataRef tree), planted) := rfl

theorem lookup?_tree : planted.registry.lookup? "Tree" = some (.dataRef tree) := rfl

theorem element_formal : ∃ actuals middle,
    (typesWithin trees.alternativesOf (maxDepth trees) [element]).run.run {} =
      (.ok actuals, middle) ∧ planted.store.sameAll actuals tree.parameters = some true :=
  ⟨tree.parameters, {}, rfl, by decide⟩

theorem tree_same_object : ¬ReachesItself trees.alternativesOf "Tree" ∧
    (Ty.dataRef tree).isSameObject (.dataRef tree) = true ∧
    ∃ constructors, planted.registry.constructorsOf planted.store "Tree" = some constructors ∧
      ∀ constructor ∈ constructors,
        (Ty.dataRef constructor.owner).isSameObject (.dataRef tree) = true :=
  ⟨tree_single, (reconstruct_declared_object (.inl rfl) tree_eq lookup?_tree
    (.inr element_formal)).1 tree_single⟩

def orders : Definitions where
  entries := [
    ("Customer", {
      subject := .dataRef "Customer" []
      alternatives := .ofList [{
        subject := .dataRef "Customer" []
        name := some "customer"
        symbols := [.list (.dataRef "Order" [])] }] }),
    ("Order", {
      subject := .dataRef "Order" [.parameter "T" (.dataRef "Customer" [])]
      alternatives := .ofList [{
        subject := .dataRef "Order" [.parameter "T" (.dataRef "Customer" [])]
        name := some "order"
        symbols := [.prim .int] }] })]
  increasing := by decide

/-- The order which is returned is not the declared one. -/
theorem order_other_object : ∃ type after declared,
    (Reified.reconstruct ⟨.dataRef "Order" [], orders⟩).run.run {} = (.ok type, after) ∧
    after.registry.lookup? "Order" = some declared ∧ type.isSameObject declared = false :=
  ⟨_, _, _, rfl, rfl, rfl⟩

end Shop

end Reconstruct

end Reification
