import Reification.Proofs.Growth
import Reification.Proofs.Mentions

/-!
# Closed properties of computations

The type of a symbol is built from the types of the names in it and from its nonterminals, in the
order in which they are mentioned.  A relation of computations which is kept when computations follow
one another thus holds of the types of a symbol if it holds of those of its names.

A property of computations is closed if it holds of those which only make references or look at the
world, and of every sequence of computations which have it.
-/

namespace Reification

/-- Whether a property of computations holds of those which leave the registry alone, and of a
sequence of computations which have it. -/
structure Building.Closed (P : {α : Type} → Building α → Prop) : Prop where
  pure : ∀ {α : Type} (result : α), P (pure result)
  throw : ∀ {α : Type} (failure : Failure), P (throw failure : Building α)
  get : P (get : Building World)
  make : ∀ {α : Type} {making : Making α}, making.Keeps → P (make making)
  bind : ∀ {α β : Type} {building : Building α} {next : α → Building β}, P building →
    (∀ result, P (next result)) → P (building >>= next)

namespace Reconstruct

/-- Whether a relation of computations which go through some mentions is kept when computations
follow one another, and holds of what is done for a symbol besides its names and nonterminals. -/
structure Compositional (R : {α : Type} → List Mention → Building α → Building α → Prop) : Prop where
  pure : ∀ {α : Type} (result : α), R [] (pure result) (pure result)
  bind : ∀ {α β : Type} {mentions more : List Mention} {building building' : Building α}
    {next next' : α → Building β}, R mentions building building' →
      (∀ result, R more (next result) (next' result)) →
        R (mentions ++ more) (building >>= next) (building' >>= next')
  owner : ∀ type, R [] (ownerOf type) (ownerOf type)
  constructor : ∀ owner name fields,
    R [] (constructorOf owner name fields) (constructorOf owner name fields)
  /-- An alias is expanded in the same way as a data type. -/
  alias_ : ∀ {name : String} {building building' : Building Ty},
    R [.dataRef name] building building' → R [.aliasRef name] building building'

namespace Compositional

variable {R : {α : Type} → List Mention → Building α → Building α → Prop}
  (compositional : Compositional R) {named named' : String → List Ty → Building Ty}
  {sort sort' : String → Building Unit}

include compositional

/-- The rest of two computations may go through no names. -/
theorem bind_last {α β : Type} {mentions : List Mention} {building building' : Building α}
    {next next' : α → Building β} (first : R mentions building building')
    (second : ∀ result, R [] (next result) (next' result)) :
    R mentions (building >>= next) (building' >>= next') :=
  List.append_nil mentions ▸ compositional.bind first second

theorem typesWith {symbols : List Symbol} (types : ∀ symbol ∈ symbols,
      R symbol.mentions (typeWith named sort symbol) (typeWith named' sort' symbol)) :
    R (Symbol.mentionsOfAll symbols) (typesWith named sort symbols)
      (typesWith named' sort' symbols) := by
  induction symbols with
  | nil => exact compositional.pure _
  | cons symbol symbols ih =>
    obtain ⟨head, tail⟩ := List.forall_mem_cons.mp types
    exact compositional.bind head fun _ =>
      compositional.bind_last (ih tail) fun _ => compositional.pure _

theorem fieldsWith {symbols : List Symbol} (types : ∀ symbol ∈ symbols,
      R symbol.mentions (typeWith named sort symbol) (typeWith named' sort' symbol)) :
    R (Symbol.mentionsOfAll symbols) (fieldsWith named sort symbols)
      (fieldsWith named' sort' symbols) := by
  induction symbols with
  | nil => exact compositional.pure _
  | cons symbol symbols ih =>
    obtain ⟨head, tail⟩ := List.forall_mem_cons.mp types
    exact compositional.bind head fun _ =>
      compositional.bind_last (ih tail) fun _ => compositional.pure _

/-- The types of a symbol are related if those of the names in it and its nonterminals are. -/
theorem typeWith {symbol : Symbol}
    (names : ∀ name, symbol.Names name → ∀ actuals,
      R [.dataRef name] (named name actuals) (named' name actuals))
    (sorts : ∀ name, .sort name ∈ symbol.mentions → R [.sort name] (sort name) (sort' name)) :
    R symbol.mentions (typeWith named sort symbol) (typeWith named' sort' symbol) := by
  have rest {α : Type} (result : α) : R [] (Pure.pure result) (Pure.pure result) :=
    compositional.pure result
  induction symbol using Symbol.induction with
  | prim => exact rest _
  | label _ _ ih => exact ih names sorts
  | list _ ih | set _ ih | reified _ ih | parameter _ _ ih =>
    exact compositional.bind_last (ih names sorts) fun _ => rest _
  | map _ _ ih_key ih_value =>
    simp only [Symbol.names_map] at names
    exact compositional.bind
      (ih_key (fun _ names_key => names _ (.inl names_key)) fun _ mem =>
        sorts _ (List.mem_append_left _ mem)) fun _ =>
      compositional.bind_last
        (ih_value (fun _ names_value => names _ (.inr names_value)) fun _ mem =>
          sorts _ (List.mem_append_right _ mem)) fun _ => rest _
  | tuple _ ih =>
    simp only [Symbol.names_tuple] at names
    exact compositional.bind_last (compositional.fieldsWith fun field mem => ih field mem
      (fun _ names_field => names _ ⟨field, mem, names_field⟩)
      fun _ sort_mem => sorts _ (Symbol.mem_mentionsOfAll mem sort_mem)) fun _ => rest _
  | func _ _ ih ih_arguments =>
    simp only [Symbol.names_func] at names
    exact compositional.bind
      (ih (fun _ names_result => names _ (.inl names_result)) fun _ mem =>
        sorts _ (List.mem_append_left _ mem)) fun _ =>
      compositional.bind_last (compositional.fieldsWith fun field mem => ih_arguments field mem
        (fun _ names_field => names _ (.inr ⟨field, mem, names_field⟩)) fun _ sort_mem =>
          sorts _ (List.mem_append_right _ (Symbol.mem_mentionsOfAll mem sort_mem))) fun _ => rest _
  | dataRef name _ ih =>
    simp only [Symbol.names_dataRef] at names
    exact compositional.bind (compositional.typesWith fun symbol mem => ih symbol mem
      (fun _ names_symbol => names _ (.inr ⟨symbol, mem, names_symbol⟩)) fun _ sort_mem =>
        sorts _ (List.mem_append_left _ (Symbol.mem_mentionsOfAll mem sort_mem))) fun actuals =>
      names name (.inl rfl) actuals
  | aliasRef name _ ih =>
    simp only [Symbol.names_aliasRef] at names
    exact compositional.bind (compositional.typesWith fun symbol mem => ih symbol mem
      (fun _ names_symbol => names _ (.inr ⟨symbol, mem, names_symbol⟩)) fun _ sort_mem =>
        sorts _ (List.mem_append_left _ (Symbol.mem_mentionsOfAll mem sort_mem))) fun actuals =>
      compositional.alias_ (names name (.inl rfl) actuals)
  | constructor _ _ _ ih ih_fields =>
    simp only [Symbol.names_constructor] at names
    refine compositional.bind (ih (fun _ names_owner => names _ (.inl names_owner)) fun _ mem =>
      sorts _ (List.mem_append_left _ mem)) fun owner => ?_
    refine compositional.bind (compositional.owner owner) fun _ => ?_
    exact compositional.bind_last (compositional.fieldsWith fun field mem => ih_fields field mem
      (fun _ names_field => names _ (.inr ⟨field, mem, names_field⟩)) fun _ sort_mem =>
        sorts _ (List.mem_append_right _ (Symbol.mem_mentionsOfAll mem sort_mem))) fun _ =>
      compositional.constructor _ _ _
  | sort name =>
    exact compositional.bind_last (sorts name (List.mem_singleton_self _)) fun _ => rest _

end Compositional

/-- Declares a name whose formal parameters have been reconstructed. -/
def declareFor (resolve : Resolver) (depth : Nat) (name : String) (formals : List Ty) :
    Building Ty :=
  match subjectOf? resolve name with
  | some (.aliasRef _ _) => declareAlias (typeWithin resolve depth) name formals (resolve name)
  | _ => declareData (fieldsWithin resolve depth) name formals (resolve name)

/-- A name is expanded by the reconstruction of its formal parameters, after which it is declared. -/
theorem expandWithin_eq {resolve : Resolver} {name : String} {production : Production}
    (first_eq : (resolve name).first? = some production) (depth : Nat) :
    expandWithin resolve (depth + 1) name production.subject =
      typesWithin resolve depth (formalsOf resolve name) >>= declareFor resolve depth name := by
  have subject_eq : subjectOf? resolve name = some production.subject.withoutLabels := by
    rw [subjectOf?, first_eq, Option.map_some]
  unfold expandWithin
  split
  · next other parameters leaf_eq =>
    have declare_eq : declareFor resolve depth name = fun formals =>
        declareAlias (typeWithin resolve depth) name formals (resolve name) := by
      funext formals
      simp only [declareFor, subject_eq, leaf_eq]
    rw [formalsOf_eq_of_alias first_eq leaf_eq, declare_eq]
    rfl
  · next other parameters leaf_eq =>
    have declare_eq : declareFor resolve depth name = fun formals =>
        declareData (fieldsWithin resolve depth) name formals (resolve name) := by
      funext formals
      simp only [declareFor, subject_eq, leaf_eq]
    rw [formalsOf_eq_of_data first_eq leaf_eq, declare_eq]
    rfl
  · next no_alias no_data =>
    rw [formalsOf_eq_nil first_eq no_alias no_data, typesWithin, typesWith, pure_bind]
    unfold declareFor
    split
    · next other parameters alias_eq =>
      exact absurd (Option.some.inj (subject_eq.symm.trans alias_eq)) (no_alias other parameters)
    · rfl

variable {P : {α : Type} → Building α → Prop} {named : String → List Ty → Building Ty}
  {sort : String → Building Unit} (closed : Building.Closed P)

include closed

theorem ask_closed {α : Type} (question : Registry → Store → Option α) :
    P (Building.ask question) := by
  refine closed.bind closed.get fun world => ?_
  rcases question world.registry world.store with _ | result
  · exact closed.throw _
  · exact closed.pure result

theorem applied_closed (declared : Ty) (actuals : List Ty) : P (applied declared actuals) := by
  unfold applied
  split
  · exact closed.pure _
  · refine closed.bind (ask_closed closed _) fun equal => ?_
    split
    · exact closed.pure _
    · exact closed.make (Ty.instantiate_keeps _)

theorem ownerOf_closed (owner : Ty) : P (ownerOf owner) := by
  unfold ownerOf
  split
  · exact closed.pure _
  · exact closed.make (Making.keeps_newData _ _)

theorem findConstructor_closed (bindings : Bindings) (name : String) (fields : List (Field Ty))
    (constructors : List (Constructor Ty)) :
    P (findConstructor bindings name fields constructors) := by
  induction constructors with
  | nil => exact closed.pure _
  | cons constructor constructors ih =>
    refine closed.bind (closed.make (Ty.instantiate_keeps _)) fun candidate => ?_
    split
    · split
      · refine closed.bind (ask_closed closed _) fun equal => ?_
        cases equal
        · exact ih
        · exact closed.pure _
      · exact ih
    · exact ih

theorem constructorOf_closed (owner : DataRef Ty) (name : String) (fields : List (Field Ty)) :
    P (constructorOf owner name fields) := by
  refine closed.bind closed.get fun world => closed.bind (ask_closed closed _) fun constructors =>
    closed.bind (findConstructor_closed closed _ _ _ _) fun found => ?_
  cases found with
  | some found => exact closed.pure _
  | none =>
    exact closed.bind (closed.make (Making.keeps_newConstructor _ _ _ _)) fun _ => closed.pure _

theorem compositional_of_closed : Compositional fun {_} _ building _ => P building where
  pure := closed.pure
  bind := closed.bind
  owner := ownerOf_closed closed
  constructor := constructorOf_closed closed
  alias_ := id

theorem typesWith_closed {symbols : List Symbol}
    (types : ∀ symbol ∈ symbols, P (typeWith named sort symbol)) :
    P (typesWith named sort symbols) :=
  @Compositional.typesWith _ (compositional_of_closed closed) named named sort sort symbols types

theorem fieldsWith_closed {symbols : List Symbol}
    (types : ∀ symbol ∈ symbols, P (typeWith named sort symbol)) :
    P (fieldsWith named sort symbols) :=
  @Compositional.fieldsWith _ (compositional_of_closed closed) named named sort sort symbols types

/-- The type of a symbol has a closed property if its parts have it. -/
theorem typeWith_closed {symbol : Symbol}
    (names : ∀ name, symbol.Names name → ∀ actuals, P (named name actuals))
    (sorts : ∀ name, .sort name ∈ symbol.mentions → P (sort name)) :
    P (typeWith named sort symbol) :=
  @Compositional.typeWith _ (compositional_of_closed closed) named named sort sort symbol names sorts

end Reconstruct

end Reification
