import Reification.Proofs.HeapGrowth
import Reification.Proofs.Scope

/-!
# Extension of scopes

A reference which has just been made extends a scope, provided that its parts lie in the scope.  What
the types of the scope show stays the same.
-/

namespace Reification

namespace Scope

/-- A scope in which more references have been made. -/
structure GrowsTo (scope wider : Scope) : Prop extends Le scope wider where
  leaf_eq : wider.Leaf = scope.Leaf
  grows : scope.store.Grows wider.store

variable {scope wider widest : Scope}

theorem GrowsTo.refl (scope : Scope) : scope.GrowsTo scope := ⟨.refl scope, rfl, .refl _⟩

theorem GrowsTo.trans (first : scope.GrowsTo wider) (second : wider.GrowsTo widest) :
    scope.GrowsTo widest :=
  ⟨first.toLe.trans second.toLe, second.leaf_eq.trans first.leaf_eq,
    first.grows.trans second.grows⟩

/-- A heap which has grown is a scope with the same leaves. -/
theorem GrowsTo.of_heap {heap : Heap} (growsTo : scope.toHeap.GrowsTo heap) :
    scope.GrowsTo { heap with Leaf := scope.Leaf } where
  known := growsTo.known
  leaf := fun _ => id
  body?_eq known body_eq := (growsTo.body?_eq known).trans body_eq
  leaf_eq := rfl
  grows := growsTo.grows

theorem DenoteAll.mono {types : List Ty} {trees : List Tree} (denote : scope.DenoteAll types trees)
    (le : scope ≤ wider) : wider.DenoteAll types trees :=
  denoteAll_iff.mpr ((denoteAll_iff.mp denote).imp fun _ _ denotes => denotes.mono le)

theorem DenoteFields.mono {fields : List (Field Ty)} {trees : List (Field Tree)}
    (denote : scope.DenoteFields fields trees) (le : scope ≤ wider) :
    wider.DenoteFields fields trees :=
  denoteFields_iff.mpr ((denoteFields_iff.mp denote).imp fun _ _ denotes =>
    ⟨denotes.1, denotes.2.mono le⟩)

theorem DenoteAll.holds {types : List Ty} {trees : List Tree} (denote : scope.DenoteAll types trees) :
    ∀ type ∈ types, scope.Holds type := by
  induction types generalizing trees with
  | nil => simp
  | cons type types ih =>
    cases denote with
    | cons head tail => exact List.forall_mem_cons.mpr ⟨head.holds, ih tail⟩

theorem DenoteFields.holds {fields : List (Field Ty)} {trees : List (Field Tree)}
    (denote : scope.DenoteFields fields trees) : ∀ field ∈ fields, scope.Holds field.type := by
  induction fields generalizing trees with
  | nil => simp
  | cons field fields ih =>
    cases denote with
    | cons _ head tail => exact List.forall_mem_cons.mpr ⟨head.holds, ih tail⟩

/-- A new data type shows the trees of its parameters. -/
theorem exists_makeData {parameters : List Ty} {trees : List Tree}
    (denote : scope.DenoteAll parameters trees) (name : String) :
    ∃ wider : Scope, scope.GrowsTo wider ∧ wider.store = (scope.store.makeData name parameters).2 ∧
      wider.Denotes (.dataRef (scope.store.makeData name parameters).1) (.dataRef name trees) := by
  obtain ⟨heap, growsTo, store_eq, known⟩ := scope.toHeap.exists_makeData denote.holds name
  exact ⟨_, .of_heap growsTo, store_eq, .dataRef known (denote.mono (GrowsTo.of_heap growsTo).toLe)⟩

/-- A new alias whose body is known shows its parameters and its body. -/
theorem exists_makeAlias {parameters : List Ty} {body : Ty} {trees : List Tree} {tree : Tree}
    (denote : scope.DenoteAll parameters trees) (some_parameter : parameters ≠ [])
    (denotes : scope.Denotes body tree) (name : String) :
    ∃ wider : Scope, scope.GrowsTo wider ∧
      wider.store = (scope.store.makeAlias name parameters (some body)).2 ∧
      wider.Denotes (.aliasRef (scope.store.makeAlias name parameters (some body)).1)
        (.aliasRef name trees (some tree)) := by
  have body_eq := scope.store.body?_made name parameters (some body)
  obtain ⟨heap, growsTo, store_eq, known⟩ := scope.toHeap.exists_makeAlias denote.holds name
    (some body) fun known known_eq => Option.some.inj known_eq ▸ denotes.holds
  have grown := GrowsTo.of_heap growsTo
  exact ⟨_, grown, store_eq, .aliasRef known some_parameter (store_eq ▸ body_eq)
    (denote.mono grown.toLe) (denotes.mono grown.toLe)⟩

/-- A new alias whose body is not known yet. -/
theorem exists_makePending {parameters : List Ty} {trees : List Tree}
    (denote : scope.DenoteAll parameters trees) (name : String) :
    ∃ wider : Scope, scope.GrowsTo wider ∧
      wider.store = (scope.store.makeAlias name parameters none).2 ∧
      wider.Known (.aliasRef (scope.store.makeAlias name parameters none).1) := by
  obtain ⟨heap, growsTo, store_eq, known⟩ :=
    scope.toHeap.exists_makeAlias denote.holds name none nofun
  exact ⟨_, .of_heap growsTo, store_eq, known⟩

/-- Filling the slot of an alias makes its body known. -/
theorem exists_fill (scope : Scope) {reference : AliasRef Ty} {body : Ty} {filled : Store}
    (fill_eq : scope.store.fill? reference body = some filled) (holds : scope.Holds body) :
    ∃ wider : Scope, scope ≤ wider ∧ wider.Leaf = scope.Leaf ∧ wider.store = filled := by
  obtain ⟨heap, rfl, known_eq, body?_eq⟩ := scope.toHeap.exists_fill fill_eq holds
  exact ⟨{ heap with Leaf := scope.Leaf }, ⟨fun known => known_eq ▸ known, fun _ => id,
    fun _ body_eq => body?_eq body_eq⟩, rfl, rfl⟩

/-- A new constructor shows its data type and its fields. -/
theorem exists_makeConstructor {owner : DataRef Ty} {fields : List (Field Ty)}
    {trees : List Tree} {fieldTrees : List (Field Tree)}
    (denotes : scope.Denotes (.dataRef owner) (.dataRef owner.name trees))
    (denote : scope.DenoteFields fields fieldTrees) (name : String)
    (attributes : OrderedSet Attribute) :
    ∃ wider : Scope, scope.GrowsTo wider ∧
      wider.store = (scope.store.makeConstructor owner name fields attributes).2 ∧
      wider.Denotes (.constructor (scope.store.makeConstructor owner name fields attributes).1)
        (.constructor owner.name trees name fieldTrees) := by
  cases denotes with
  | dataRef owner_known denote_owner =>
    obtain ⟨heap, growsTo, store_eq, known⟩ :=
      scope.toHeap.exists_makeConstructor name owner_known denote.holds attributes
    have grown := GrowsTo.of_heap growsTo
    exact ⟨_, grown, store_eq,
      .constructor known (denote_owner.mono grown.toLe) (denote.mono grown.toLe)⟩

end Scope

end Reification
