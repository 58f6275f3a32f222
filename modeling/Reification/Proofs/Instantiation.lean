import Reification.Proofs.Extension

/-!
# Instantiation in a scope

Instantiating a type which shows a tree ends and gives a type which shows the tree with its type
parameters replaced.  The references which are made on the way extend the scope.
-/

namespace Reification

namespace Making

variable {α β : Type} {store : Store}

/-- A computation ends, and its result and its store are as stated. -/
def Gives (making : Making α) (store : Store) (post : α → Store → Prop) : Prop :=
  ∃ result after, making.run store = some (result, after) ∧ post result after

theorem gives_pure {result : α} {post : α → Store → Prop} (holds : post result store) :
    (pure result : Making α).Gives store post := ⟨result, store, rfl, holds⟩

theorem Gives.bind {making : Making α} {next : α → Making β} {middle : α → Store → Prop}
    {post : β → Store → Prop} (first : making.Gives store middle)
    (second : ∀ result after, middle result after → (next result).Gives after post) :
    (making >>= next).Gives store post := by
  obtain ⟨result, after, run_eq, holds⟩ := first
  obtain ⟨last, last_store, next_eq, post_holds⟩ := second result after holds
  exact ⟨last, last_store, by simp [StateT.run_bind, run_eq, next_eq], post_holds⟩

end Making

/-- How deep the bodies of aliases with parameters are nested below an alias, at most. -/
def Store.Shallow (store : Store) : Nat → AliasRef Ty → Prop
  | 0, reference => reference.parameters = []
  | depth + 1, reference => reference.parameters = [] ∨
    ∀ body, store.body? reference = some body → body.AllAliases (store.Shallow depth)

namespace Store

variable {store : Store}

theorem Shallow.succ {depth : Nat} {reference : AliasRef Ty}
    (shallow : store.Shallow depth reference) : store.Shallow (depth + 1) reference := by
  induction depth generalizing reference with
  | zero => exact .inl shallow
  | succ depth ih =>
    refine shallow.imp_right fun nested body body_eq => ?_
    exact (nested body body_eq).imp fun _ => ih

theorem Shallow.mono {depth deeper : Nat} (le : depth ≤ deeper) {reference : AliasRef Ty}
    (shallow : store.Shallow depth reference) : store.Shallow deeper reference := by
  induction le with
  | refl => exact shallow
  | step _ ih => exact ih.succ

open Classical in
/-- The slots whose bodies are nested up to some depth. -/
noncomputable def nestedSlots (store : Store) (depth : Nat) : Finset Nat :=
  (Finset.range store.slots.size).filter fun slot =>
    ∀ body, store.body? ⟨slot, "", []⟩ = some body → body.AllAliases (store.Shallow depth)

/-- If no further body is nested up to the next depth, none is nested deeper. -/
theorem shallow_stable {depth : Nat}
    (stable : store.nestedSlots depth = store.nestedSlots (depth + 1)) :
    store.Shallow (depth + 2) = store.Shallow (depth + 1) := by
  funext reference
  refine propext ⟨fun shallow => shallow.imp_right fun nested body body_eq => ?_, Shallow.succ⟩
  have mem : reference.object ∈ store.nestedSlots (depth + 1) := by
    classical
    exact Finset.mem_filter.mpr ⟨Finset.mem_range.mpr (lt_size_of_body? body_eq), nested⟩
  rw [← stable] at mem
  classical
  exact (Finset.mem_filter.mp mem).2 body body_eq

/-- Bodies are nested no deeper than there are aliases. -/
theorem Shallow.bounded {depth : Nat} {reference : AliasRef Ty}
    (shallow : store.Shallow depth reference) :
    store.Shallow (store.slots.size + 1) reference := by
  classical
  obtain ⟨bound, bound_le, stable⟩ := exists_eq_succ_of_growing store.nestedSlots
    (Finset.range store.slots.size)
    (fun depth slot mem => by
      obtain ⟨inside, nested⟩ := Finset.mem_filter.mp mem
      exact Finset.mem_filter.mpr ⟨inside, fun body body_eq =>
        (nested body body_eq).imp fun _ => Shallow.succ⟩)
    (fun depth => Finset.filter_subset _ _)
  have constant : ∀ more, store.Shallow (bound + 1 + more) = store.Shallow (bound + 1) := by
    intro more
    induction more with
    | zero => rfl
    | succ more ih =>
      refine Eq.trans ?_ (shallow_stable stable)
      funext reference
      rw [← Nat.add_assoc, Shallow, ih]
      rfl
  have deeper := shallow.mono (Nat.le_add_left depth (bound + 1))
  rw [constant depth] at deeper
  exact deeper.mono (by simpa using bound_le)

end Store

namespace Scope

variable {α β : Type} {scope wider : Scope} {bindings : Bindings} {given : Tree.Substitution}

/-- Whether names are bound to types which show the trees that are given to them. -/
def Binds (scope : Scope) (bindings : Bindings) (given : Tree.Substitution) : Prop :=
  ∀ name, Option.Rel scope.Denotes (bindings.get? name) (given name)

theorem Binds.mono (binds : scope.Binds bindings given) (le : scope ≤ wider) :
    wider.Binds bindings given := by
  intro name
  have bound := binds name
  revert bound
  rcases bindings.get? name with _ | type <;> rcases given name with _ | tree <;> intro bound
  · exact .none
  · cases bound
  · cases bound
  · cases bound with
    | some denotes => exact .some (denotes.mono le)

/-- A computation in a scope ends in a scope which it has extended, with a result as stated. -/
def Makes (scope : Scope) (making : Making α) (shows_ : Scope → α → Prop) : Prop :=
  making.Gives scope.store fun result store =>
    ∃ wider : Scope, scope.GrowsTo wider ∧ wider.store = store ∧ shows_ wider result

theorem makes_pure {result : α} {shows_ : Scope → α → Prop} (holds : shows_ scope result) :
    scope.Makes (pure result) shows_ :=
  Making.gives_pure ⟨scope, .refl scope, rfl, holds⟩

theorem Makes.bind {making : Making α} {next : α → Making β} {middle : Scope → α → Prop}
    {shows_ : Scope → β → Prop} (first : scope.Makes making middle)
    (second : ∀ wider result, scope.GrowsTo wider → middle wider result →
      wider.Makes (next result) shows_) : scope.Makes (making >>= next) shows_ := by
  refine Making.Gives.bind first ?_
  rintro result _ ⟨wider, growsTo, rfl, holds⟩
  obtain ⟨last, store, run_eq, widest, later, store_eq, shows_last⟩ :=
    second wider result growsTo holds
  exact ⟨last, store, run_eq, widest, growsTo.trans later, store_eq, shows_last⟩

theorem makes_newData {parameters : List Ty} {trees : List Tree}
    (denote : scope.DenoteAll parameters trees) (name : String) :
    scope.Makes (Making.newData name parameters) fun wider reference =>
      reference.name = name ∧ wider.Denotes (.dataRef reference) (.dataRef name trees) := by
  obtain ⟨wider, growsTo, store_eq, denotes⟩ := exists_makeData denote name
  exact ⟨_, _, rfl, wider, growsTo, store_eq, rfl, denotes⟩

theorem makes_newAlias {parameters : List Ty} {body : Ty} {trees : List Tree} {tree : Tree}
    (denote : scope.DenoteAll parameters trees) (some_parameter : parameters ≠ [])
    (denotes : scope.Denotes body tree) (name : String) :
    scope.Makes (Making.newAlias name parameters (some body)) fun wider reference =>
      wider.Denotes (.aliasRef reference) (.aliasRef name trees (some tree)) := by
  obtain ⟨wider, growsTo, store_eq, denotes⟩ := exists_makeAlias denote some_parameter denotes name
  exact ⟨_, _, rfl, wider, growsTo, store_eq, denotes⟩

theorem makes_newPending {parameters : List Ty} {trees : List Tree}
    (denote : scope.DenoteAll parameters trees) (name : String) :
    scope.Makes (Making.newAlias name parameters none) fun wider reference =>
      reference.name = name ∧ scope.store.slots.size ≤ reference.object ∧
        wider.Known (.aliasRef reference) ∧ wider.DenoteAll reference.parameters trees ∧
        wider.store.slots[reference.object]? = some none := by
  obtain ⟨wider, growsTo, store_eq, known⟩ := exists_makePending denote name
  exact ⟨_, _, rfl, wider, growsTo, store_eq, rfl, le_rfl, known, denote.mono growsTo.toLe,
    by simp [store_eq, Store.makeAlias]⟩

theorem makes_newConstructor {owner : DataRef Ty} {fields : List (Field Ty)} {trees : List Tree}
    {fieldTrees : List (Field Tree)}
    (denotes : scope.Denotes (.dataRef owner) (.dataRef owner.name trees))
    (denote : scope.DenoteFields fields fieldTrees) (name : String)
    (attributes : OrderedSet Attribute) :
    scope.Makes (Making.newConstructor owner name fields attributes) fun wider reference =>
      (∃ object, reference = ⟨object, owner, name, fields, attributes⟩) ∧
        wider.Denotes (.constructor reference) (.constructor owner.name trees name fieldTrees) := by
  obtain ⟨wider, growsTo, store_eq, denotes⟩ := exists_makeConstructor denotes denote name attributes
  exact ⟨_, _, rfl, wider, growsTo, store_eq, ⟨_, rfl⟩, denotes⟩

end Scope

namespace Scope

variable {scope wider : Scope} {bindings : Bindings} {given : Tree.Substitution}

theorem makes_instantiatedBody {depth : Nat} {reference : AliasRef Ty} {body : Ty} {tree : Tree}
    (body_eq : scope.store.body? reference = some body)
    (makes : scope.Makes (body.instantiateWithin bindings depth) fun wider result =>
      wider.Denotes result tree) :
    scope.Makes (Ty.instantiatedBody bindings (depth + 1) reference) fun wider result =>
      ∃ instance_, result = some instance_ ∧ wider.Denotes instance_ tree := by
  obtain ⟨result, after, run_eq, wider, growsTo, store_eq, denotes⟩ := makes
  refine ⟨some result, after, ?_, wider, growsTo, store_eq, result, rfl, denotes⟩
  simp [Ty.instantiatedBody, StateT.run_bind, body_eq, run_eq]

/-- Instantiating a type replaces the type parameters in its tree. -/
theorem Denotes.makes_instantiateWithin {type : Ty} {tree : Tree} (denotes : scope.Denotes type tree) :
    ∀ depth, type.AllAliases (scope.store.Shallow depth) → ∀ wider, scope.GrowsTo wider →
      wider.Binds bindings given → wider.Makes (type.instantiateWithin bindings depth)
        fun widest result => widest.Denotes result (tree.subst given) := by
  simp only [Ty.instantiateWithin_eq]
  have all {types : List Ty} {trees : List Tree} (known : List.Forall₂ (fun type tree =>
      ∃ _ : scope.Denotes type tree, ∀ depth, type.AllAliases (scope.store.Shallow depth) →
        ∀ wider, scope.GrowsTo wider → wider.Binds bindings given →
          wider.Makes (type.instantiateWith bindings (Ty.instantiatedBody bindings depth))
            fun widest result => widest.Denotes result (tree.subst given)) types trees)
      (depth : Nat) (shallow : ∀ type ∈ types, type.AllAliases (scope.store.Shallow depth))
      (wider : Scope) (growsTo : scope.GrowsTo wider) (binds : wider.Binds bindings given) :
      wider.Makes (Ty.instantiateAllWith bindings (Ty.instantiatedBody bindings depth) types)
        fun widest results => widest.DenoteAll results (trees.map (Tree.subst given)) := by
    induction known generalizing wider with
    | nil => exact makes_pure .nil
    | cons head _ ih =>
      obtain ⟨head_shallow, tail_shallow⟩ := List.forall_mem_cons.mp shallow
      refine (head.2 depth head_shallow wider growsTo binds).bind fun first result later denotes => ?_
      refine (ih tail_shallow first (growsTo.trans later) (binds.mono later.toLe)).bind
        fun second results last denote => ?_
      exact makes_pure (.cons (denotes.mono last.toLe) denote)
  have fields {fields : List (Field Ty)} {trees : List (Field Tree)}
      (known : List.Forall₂ (Field.Rel fun type tree => ∃ _ : scope.Denotes type tree,
        ∀ depth, type.AllAliases (scope.store.Shallow depth) →
          ∀ wider, scope.GrowsTo wider → wider.Binds bindings given →
            wider.Makes (type.instantiateWith bindings (Ty.instantiatedBody bindings depth))
              fun widest result => widest.Denotes result (tree.subst given)) fields trees)
      (depth : Nat)
      (shallow : ∀ field ∈ fields, field.type.AllAliases (scope.store.Shallow depth))
      (wider : Scope) (growsTo : scope.GrowsTo wider) (binds : wider.Binds bindings given) :
      wider.Makes (Ty.instantiateFieldsWith bindings (Ty.instantiatedBody bindings depth) fields)
        fun widest results =>
          widest.DenoteFields results (trees.map (Field.map (Tree.subst given))) := by
    induction known generalizing wider with
    | nil => exact makes_pure .nil
    | @cons field tree _ _ head _ ih =>
      obtain ⟨label, type⟩ := field
      obtain ⟨_, tree⟩ := tree
      obtain ⟨rfl, _, head⟩ := head
      obtain ⟨head_shallow, tail_shallow⟩ := List.forall_mem_cons.mp shallow
      refine (head depth head_shallow wider growsTo binds).bind fun first result later denotes => ?_
      refine (ih tail_shallow first (growsTo.trans later) (binds.mono later.toLe)).bind
        fun second results last denote => ?_
      exact makes_pure (.cons label (denotes.mono last.toLe) denote)
  induction denotes using Denotes.induction with
  | prim => exact fun _ _ _ _ _ => makes_pure (.prim _)
  | sort => exact fun _ _ _ _ _ => makes_pure (.sort _)
  | list _ _ _ ih =>
    exact fun depth shallow wider growsTo binds =>
      (ih depth shallow wider growsTo binds).bind fun _ _ _ denotes => makes_pure (.list denotes)
  | set _ _ _ ih =>
    exact fun depth shallow wider growsTo binds =>
      (ih depth shallow wider growsTo binds).bind fun _ _ _ denotes => makes_pure (.set denotes)
  | reified _ _ _ ih =>
    exact fun depth shallow wider growsTo binds =>
      (ih depth shallow wider growsTo binds).bind fun _ _ _ denotes => makes_pure (.reified denotes)
  | parameter name bound tree denotes =>
    intro depth _ wider growsTo binds
    have bound := binds name
    simp only [Ty.instantiateWith, Tree.subst]
    refine makes_pure ?_
    revert bound
    rcases bindings.get? name with _ | type <;> rcases given name with _ | other <;> intro bound
    · exact .parameter name (denotes.mono growsTo.toLe)
    · cases bound
    · cases bound
    · cases bound with
      | some denotes => exact denotes
  | map _ _ _ _ _ _ ih_key ih_value =>
    intro depth shallow wider growsTo binds
    rw [Ty.allAliases_map] at shallow
    refine (ih_key depth shallow.1 wider growsTo binds).bind fun first _ later key_denotes => ?_
    refine (ih_value depth shallow.2 first (growsTo.trans later) (binds.mono later.toLe)).bind
      fun second _ last value_denotes => ?_
    exact makes_pure (.map (key_denotes.mono last.toLe) value_denotes)
  | tuple _ _ _ ih =>
    intro depth shallow wider growsTo binds
    rw [Ty.allAliases_tuple] at shallow
    refine (fields ih depth shallow wider growsTo binds).bind fun _ _ _ denote => ?_
    exact makes_pure (by simpa [Tree.subst] using .tuple denote)
  | func _ _ _ _ _ _ ih ih_arguments =>
    intro depth shallow wider growsTo binds
    rw [Ty.allAliases_func] at shallow
    refine (ih depth shallow.1 wider growsTo binds).bind fun first _ later denotes => ?_
    refine (fields ih_arguments depth shallow.2 first (growsTo.trans later)
      (binds.mono later.toLe)).bind fun second _ last denote => ?_
    exact makes_pure (by simpa [Tree.subst] using .func (denotes.mono last.toLe) denote)
  | dataRef reference trees known denote ih =>
    intro depth shallow wider growsTo binds
    rw [Ty.allAliases_dataRef] at shallow
    rw [Ty.instantiateWith]
    split
    · next empty =>
      have parameters_eq := List.isEmpty_iff.mp empty
      rw [parameters_eq] at denote
      cases denote
      exact makes_pure (by
        simpa [Tree.subst] using Denotes.dataRef (growsTo.known known) (parameters_eq ▸ .nil))
    · refine (all ih depth shallow wider growsTo binds).bind fun first actuals later denote => ?_
      refine (makes_newData denote reference.name).bind fun second made _ holds => ?_
      exact makes_pure (by simpa [Tree.subst] using holds.2)
  | leaf reference known leaf none =>
    intro depth shallow wider growsTo binds
    rw [Ty.instantiateWith, if_pos (by simp [none])]
    exact makes_pure (by
      simpa [Tree.subst] using
        Denotes.leaf (growsTo.known known) (growsTo.leaf known leaf) none)
  | aliasRef reference body trees tree known some_parameter body_eq denote denotes ih ih_body =>
    intro depth shallow wider growsTo binds
    rw [Ty.allAliases_aliasRef] at shallow
    obtain ⟨reference_shallow, parameters_shallow⟩ := shallow
    rw [Ty.instantiateWith, if_neg (by simpa using some_parameter)]
    refine (all ih depth parameters_shallow wider growsTo binds).bind
      fun first actuals later actuals_denote => ?_
    obtain _ | depth := depth
    · exact absurd reference_shallow some_parameter
    · have nested : body.AllAliases (scope.store.Shallow depth) :=
        reference_shallow.resolve_left some_parameter body body_eq
      have grown := growsTo.trans later
      have instantiated := ih_body depth nested first grown (binds.mono later.toLe)
      rw [← Ty.instantiateWithin_eq] at instantiated
      refine (makes_instantiatedBody (grown.body?_eq known body_eq) instantiated).bind
        fun second result last holds => ?_
      obtain ⟨instance_, rfl, instance_denotes⟩ := holds
      have actuals_some : actuals ≠ [] := by
        rintro rfl
        obtain rfl : trees = [] := by simpa using actuals_denote.length_eq.symm
        exact some_parameter (List.length_eq_zero_iff.mp denote.length_eq)
      refine (makes_newAlias (actuals_denote.mono last.toLe) actuals_some instance_denotes
        reference.name).bind fun third made _ denotes => ?_
      exact makes_pure (by simpa [Tree.subst] using denotes)
  | constructor reference trees fieldTrees known denote denote_fields ih ih_fields =>
    intro depth shallow wider growsTo binds
    rw [Ty.allAliases_constructor] at shallow
    rw [Ty.instantiateWith]
    split
    · next empty =>
      have parameters_eq := List.isEmpty_iff.mp empty
      have trees_eq : trees = [] := by
        have length_eq := denote.length_eq
        rw [parameters_eq] at length_eq
        exact List.length_eq_zero_iff.mp length_eq.symm
      subst trees_eq
      exact makes_pure ((Denotes.constructor known denote denote_fields).mono growsTo.toLe)
    · next some_parameter =>
      have trees_some : trees ≠ [] := by
        rintro rfl
        exact some_parameter (List.isEmpty_iff.mpr (List.length_eq_zero_iff.mp denote.length_eq))
      rw [Tree.subst_constructor given trees_some]
      refine (all ih depth shallow.1 wider growsTo binds).bind fun first actuals later denote => ?_
      refine (makes_newData denote reference.owner.name).bind fun second owner next_ holds => ?_
      obtain ⟨owner_name, owner_denotes⟩ := holds
      have grown := (growsTo.trans later).trans next_
      refine (fields ih_fields depth shallow.2 second grown
        (binds.mono (later.trans next_).toLe)).bind fun third results last denote_results => ?_
      refine (makes_newConstructor (owner_name ▸ owner_denotes.mono last.toLe) denote_results
        reference.name reference.attributes).bind fun fourth made _ denotes => ?_
      exact makes_pure (owner_name ▸ denotes.2)

/-- What shows a tree has its bodies nested no deeper than there are aliases. -/
theorem Denotes.shallow {type : Ty} {tree : Tree} (denotes : scope.Denotes type tree) :
    type.AllAliases (scope.store.Shallow (scope.store.slots.size + 1)) := by
  have all {types : List Ty} {trees : List Tree} (known : List.Forall₂ (fun type tree =>
      ∃ _ : scope.Denotes type tree, type.AllAliases (scope.store.Shallow
        (scope.store.slots.size + 1))) types trees) :
      ∀ type ∈ types, type.AllAliases (scope.store.Shallow (scope.store.slots.size + 1)) := by
    induction known with
    | nil => simp
    | cons head _ ih => exact List.forall_mem_cons.mpr ⟨head.2, ih⟩
  have fields {fields : List (Field Ty)} {trees : List (Field Tree)}
      (known : List.Forall₂ (Field.Rel fun type tree => ∃ _ : scope.Denotes type tree,
        type.AllAliases (scope.store.Shallow (scope.store.slots.size + 1))) fields trees) :
      ∀ field ∈ fields,
        field.type.AllAliases (scope.store.Shallow (scope.store.slots.size + 1)) := by
    induction known with
    | nil => simp
    | cons head _ ih => exact List.forall_mem_cons.mpr ⟨head.2.2, ih⟩
  induction denotes using Denotes.induction with
  | prim | sort => simp
  | list _ _ _ ih | set _ _ _ ih | reified _ _ _ ih | parameter _ _ _ _ ih => simpa using ih
  | map _ _ _ _ _ _ ih_key ih_value => exact (Ty.allAliases_map _ _).mpr ⟨ih_key, ih_value⟩
  | tuple _ _ _ ih => exact (Ty.allAliases_tuple _).mpr (fields ih)
  | func _ _ _ _ _ _ ih ih_arguments =>
    exact (Ty.allAliases_func _ _).mpr ⟨ih, fields ih_arguments⟩
  | dataRef _ _ _ _ ih => exact (Ty.allAliases_dataRef _).mpr (all ih)
  | leaf _ _ _ none =>
    exact (Ty.allAliases_aliasRef _).mpr ⟨.inl none, by simp [none]⟩
  | aliasRef reference body _ _ _ _ body_eq _ _ ih ih_body =>
    have deeper : scope.store.Shallow (scope.store.slots.size + 2) reference := by
      refine Or.inr fun other other_eq => ?_
      obtain rfl := Option.some.inj (body_eq.symm.trans other_eq)
      exact ih_body
    exact (Ty.allAliases_aliasRef _).mpr ⟨deeper.bounded, all ih⟩
  | constructor _ _ _ _ _ _ ih ih_fields =>
    exact (Ty.allAliases_constructor _).mpr ⟨all ih, fields ih_fields⟩

/-- Instantiating a type ends and replaces the type parameters in its tree. -/
theorem Denotes.makes_instantiate {type : Ty} {tree : Tree} (denotes : scope.Denotes type tree)
    (binds : scope.Binds bindings given) :
    scope.Makes (type.instantiate bindings) fun wider result =>
      wider.Denotes result (tree.subst given) := by
  obtain ⟨result, after, run_eq, shows_⟩ :=
    denotes.makes_instantiateWithin _ denotes.shallow scope (.refl scope) binds
  exact ⟨result, after, by simpa [Ty.instantiate, StateT.run_bind] using run_eq, shows_⟩

/-- Formal parameters are bound to types which show what is given to their names. -/
theorem binds_ofParameters {formals actuals : List Ty} {trees others : List Tree}
    (denote : scope.DenoteAll formals trees) (denote' : scope.DenoteAll actuals others) :
    scope.Binds (.ofParameters formals actuals) (.ofParameters trees others) := by
  have step {bindings : Bindings} {given : Tree.Substitution} (binds : scope.Binds bindings given) :
      scope.Binds ((formals.zip actuals).foldl Bindings.bind bindings)
        ((trees.zip others).foldl Tree.Substitution.bind given) := by
    induction formals generalizing actuals trees others bindings given with
    | nil =>
      cases denote
      exact binds
    | cons formal formals ih =>
      cases denote with
      | cons head tail =>
        cases denote' with
        | nil => exact binds
        | cons head' tail' =>
          refine ih tail tail' fun name => ?_
          cases head with
          | parameter formal_name =>
            rw [Bindings.bind, Table.get?_insert, Tree.Substitution.bind, Function.update_apply]
            split
            · exact .some head'
            · exact binds name
          | _ => exact binds name
  exact step fun _ => .none

end Scope

end Reification
