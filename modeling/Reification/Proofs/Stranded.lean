import Reification.Proofs.Instances

/-!
# Type parameters which are left in an instance

Instantiating a type replaces the type parameters which are bound wherever it enters, but it does not
enter the bound of a type parameter which stays.  If the actual parameters do not mention the names
which are bound, the instance mentions such a name just if the bound of a type parameter which stays
does.
-/

namespace Reification

open Relation (ReflTransGen)

/-- Whether a reference has parameters, as far as a type is one. -/
def Ty.isParameterized : Ty → Bool
  | .dataRef reference => !reference.parameters.isEmpty
  | .aliasRef reference => !reference.parameters.isEmpty
  | .constructor reference => !reference.owner.parameters.isEmpty
  | _ => true

namespace Store

variable {store : Store} {bindings : Bindings} {type : Ty} {name : String}

/-- Whether a type contains another one, also in the bodies of its aliases and in bounds. -/
def Contains (store : Store) : Ty → Ty → Prop :=
  ReflTransGen fun whole part => part ∈ store.parts whole

/-- Whether a type parameter of a name occurs in a type. -/
def Mentions (store : Store) (name : String) (type : Ty) : Prop :=
  ∃ bound, store.Contains type (.parameter name bound)

/-- Whether instantiating a type leaves a type parameter in it whose bound mentions a name. -/
def Strands (store : Store) (bindings : Bindings) (name : String) (type : Ty) : Prop :=
  ∃ other bound, ReflTransGen store.Enters type (.parameter other bound) ∧
    bindings.get? other = none ∧ store.Mentions name bound

/-- Whether all references which instantiating a type enters have parameters. -/
def Parameterized (store : Store) (type : Ty) : Prop :=
  ∀ part, ReflTransGen store.Enters type part → part.isParameterized = true

theorem mentions_parameter_iff {other : String} {bound : Ty} :
    store.Mentions name (.parameter other bound) ↔ name = other ∨ store.Mentions name bound := by
  constructor
  · rintro ⟨last, path⟩
    rcases path.cases_head with same | ⟨part, mem, rest⟩
    · exact .inl (Ty.parameter.inj same).1.symm
    · obtain rfl := List.mem_singleton.mp mem
      exact .inr ⟨last, rest⟩
  · rintro (rfl | ⟨last, path⟩)
    · exact ⟨bound, .refl⟩
    · exact ⟨last, .head (b := bound) (List.mem_singleton_self _) path⟩

/-- A name occurs in a type which is no type parameter just if it occurs in a part. -/
theorem mentions_iff (no_parameter : ∀ name bound, type ≠ .parameter name bound) :
    store.Mentions name type ↔ ∃ part ∈ store.parts type, store.Mentions name part := by
  constructor
  · rintro ⟨bound, path⟩
    rcases path.cases_head with same | ⟨part, mem, path⟩
    · exact absurd same (no_parameter name bound)
    · exact ⟨part, mem, bound, path⟩
  · rintro ⟨part, mem, bound, path⟩
    exact ⟨bound, .head mem path⟩

theorem strands_parameter_iff {other : String} {bound : Ty} :
    store.Strands bindings name (.parameter other bound) ↔
      bindings.get? other = none ∧ store.Mentions name bound := by
  constructor
  · rintro ⟨last, lastBound, path, free, mentions⟩
    rcases path.cases_head with same | ⟨part, enters, path⟩
    · obtain ⟨rfl, rfl⟩ := Ty.parameter.inj same
      exact ⟨free, mentions⟩
    · cases enters.1
  · rintro ⟨free, mentions⟩
    exact ⟨other, bound, .refl, free, mentions⟩

/-- A name is stranded in a type which is copied just if it is stranded in a part. -/
theorem strands_iff (isCopied_eq : type.isCopied = true) :
    store.Strands bindings name type ↔
      ∃ part ∈ store.parts type, store.Strands bindings name part := by
  constructor
  · rintro ⟨other, bound, path, free, mentions⟩
    rcases path.cases_head with rfl | ⟨part, enters, path⟩
    · cases isCopied_eq
    · exact ⟨part, enters.2, other, bound, path, free, mentions⟩
  · rintro ⟨part, mem, other, bound, path, free, mentions⟩
    exact ⟨other, bound, .head ⟨isCopied_eq, mem⟩ path, free, mentions⟩

end Store

theorem exists_mem_iff_of_forall₂ {α β : Type} {P : α → Prop} {Q : β → Prop} {lefts : List α}
    {rights : List β} (related : List.Forall₂ (fun left right => P left ↔ Q right) lefts rights) :
    (∃ left ∈ lefts, P left) ↔ ∃ right ∈ rights, Q right := by
  induction related with
  | nil => simp
  | cons head _ ih => simp [head, ih]

namespace Heap

variable {heap wider : Heap} {bindings : Bindings} {type part result : Ty} {name : String}

/-- Paths from a type of a heap are the same later if they lead along its parts. -/
theorem path_iff {R : Store → Ty → Ty → Prop}
    (parts : ∀ {store whole part}, R store whole part → part ∈ store.parts whole)
    (agree : ∀ {whole part}, heap.Holds whole →
      (R wider.store whole part ↔ R heap.store whole part)) (holds : heap.Holds type) :
    ReflTransGen (R wider.store) type part ↔ ReflTransGen (R heap.store) type part := by
  constructor
  · intro path
    suffices ReflTransGen (R heap.store) type part ∧ heap.Holds part from this.1
    induction path with
    | refl => exact ⟨.refl, holds⟩
    | tail _ step ih =>
      have earlier := (agree ih.2).mp step
      exact ⟨.tail ih.1 earlier, holds_of_mem_parts ih.2 (parts earlier)⟩
  · intro path
    suffices ReflTransGen (R wider.store) type part ∧ heap.Holds part from this.1
    induction path with
    | refl => exact ⟨.refl, holds⟩
    | tail _ step ih =>
      exact ⟨.tail ih.1 ((agree ih.2).mpr step), holds_of_mem_parts ih.2 (parts step)⟩

theorem GrowsTo.enters_iff (growsTo : heap.GrowsTo wider) (holds : heap.Holds type) :
    ReflTransGen wider.store.Enters type part ↔ ReflTransGen heap.store.Enters type part :=
  path_iff (fun enters => enters.2)
    (fun holds => by rw [Store.Enters, Store.Enters, growsTo.parts_eq holds]) holds

theorem GrowsTo.mentions_iff (growsTo : heap.GrowsTo wider) (holds : heap.Holds type) :
    wider.store.Mentions name type ↔ heap.store.Mentions name type :=
  exists_congr fun _ => path_iff id (fun holds => by rw [growsTo.parts_eq holds]) holds

theorem GrowsTo.strands_iff (growsTo : heap.GrowsTo wider) (holds : heap.Holds type) :
    wider.store.Strands bindings name type ↔ heap.store.Strands bindings name type := by
  refine exists_congr fun other => exists_congr fun bound => ?_
  rw [growsTo.enters_iff holds]
  refine and_congr_right fun path => and_congr_right fun _ => growsTo.mentions_iff ?_
  exact holds_of_mem_children (holds.of_enters path) (List.mem_singleton_self _)

/-- A name which is bound occurs in an instance just if it is stranded in it. -/
theorem Instantiates.mentions_iff (instance_ : heap.Instantiates bindings type result)
    (parameterized : heap.store.Parameterized type)
    (fresh : ∀ ⦃other actual⦄, bindings.get? other = some actual →
      ¬heap.store.Mentions name actual) (bound : bindings.contains name = true) :
    heap.store.Mentions name result ↔ heap.store.Strands bindings name type := by
  obtain ⟨-, -, instantiates⟩ := instance_
  induction instantiates with
  | bound get?_eq =>
    rw [Store.strands_parameter_iff, get?_eq]
    simpa using fresh get?_eq
  | @free other _ get?_eq =>
    have distinct : name ≠ other := by
      rintro rfl
      simp [Table.contains, get?_eq] at bound
    rw [Store.mentions_parameter_iff, Store.strands_parameter_iff]
    simp [distinct, get?_eq]
  | @kept type isCopied_eq no_parameter =>
    have entered := parameterized type .refl
    have not_stranded : ¬heap.store.Strands bindings name type := by
      rintro ⟨other, bound, path, -⟩
      rcases path.cases_head with same | ⟨part, enters, -⟩
      · exact no_parameter other bound same
      · exact absurd enters.1 (by simp [isCopied_eq])
    rw [Store.mentions_iff no_parameter]
    refine iff_of_false ?_ not_stranded
    cases type with
    | prim | sort => exact fun ⟨_, mem, _⟩ => nomatch mem
    | parameter => exact absurd rfl (no_parameter _ _)
    | dataRef | aliasRef | constructor => exact absurd (isCopied_eq.symm.trans entered) nofun
    | _ => cases isCopied_eq
  | @copied type result isCopied_eq outline_eq length_eq _ ih =>
    have no_parameter (other : String) (bound : Ty) : result ≠ .parameter other bound := by
      rintro rfl
      cases isCopied_eq.symm.trans (Ty.isCopied_eq_of_outline_eq outline_eq)
    rw [Store.mentions_iff no_parameter, Store.strands_iff isCopied_eq]
    refine (exists_mem_iff_of_forall₂ (List.forall₂_iff_zip.mpr ⟨length_eq, fun mem => ?_⟩)).symm
    exact (ih mem fun part path => parameterized part
      (.head ⟨isCopied_eq, (List.of_mem_zip mem).1⟩ path)).symm

/-- Instantiating a type ends, and a name which is bound occurs in the instance just if it is
stranded in the type. -/
theorem instantiate_mentions_iff (holds : heap.Holds type) (binds : heap.Binds bindings)
    (acyclic : heap.store.Acyclic type) (parameterized : heap.store.Parameterized type)
    (fresh : ∀ ⦃name other actual⦄, bindings.contains name = true →
      bindings.get? other = some actual → ¬heap.store.Mentions name actual) :
    (type.instantiate bindings).Gives heap.store fun result after =>
      ∀ name, bindings.contains name = true →
        (after.Mentions name result ↔ heap.store.Strands bindings name type) := by
  obtain ⟨result, _, run_eq, last, growsTo, rfl, instance_⟩ :=
    makes_instantiate binds holds (grounded_of_acyclic holds acyclic)
  refine ⟨result, last.store, run_eq, fun name bound => ?_⟩
  rw [← growsTo.strands_iff holds]
  refine instance_.mentions_iff (fun part path => ?_) (fun other actual get?_eq => ?_) bound
  · exact parameterized part ((growsTo.enters_iff holds).mp path)
  · rw [growsTo.mentions_iff (binds get?_eq)]
    exact fresh bound get?_eq

end Heap

/-! Ranges, in which the type of the ends is bounded by that of the elements. -/

namespace Bounded

/-- A type parameter which is bounded by another one. -/
def limit : Ty := .parameter "Limit" (.parameter "Element" (.prim .value))

def range : DataRef Ty := ⟨0, "Range", [.parameter "Element" (.prim .value), limit]⟩

def numbers : Bindings := ⟨[("Element", .prim .int)], by decide⟩

def heap : Heap :=
  .of ⟨1, #[]⟩ [.dataRef range] (by simp) (by simp [Store.HasMade, range])
    (by simp [Ty.references, Ty.referencesOfAll, Store.behind, range, limit])

theorem binds : heap.Binds numbers := by
  intro name actual get?_eq
  cases List.mem_singleton.mp (Table.get?_eq_some_iff.mp get?_eq)
  simp

theorem fresh ⦃name other : String⦄ ⦃actual : Ty⦄ (_ : numbers.contains name = true)
    (get?_eq : numbers.get? other = some actual) : ¬heap.store.Mentions name actual := by
  cases List.mem_singleton.mp (Table.get?_eq_some_iff.mp get?_eq)
  have no_parameter : ∀ name bound, Ty.prim .int ≠ .parameter name bound := nofun
  rw [Store.mentions_iff no_parameter]
  simp [Store.parts, Ty.children]

/-- A type parameter is not entered. -/
theorem eq_of_enters {name : String} {bound part : Ty}
    (path : ReflTransGen heap.store.Enters (.parameter name bound) part) :
    part = .parameter name bound := by
  rcases path.cases_head with same | ⟨_, enters, -⟩
  · exact same.symm
  · cases enters.1

theorem limit_parameterized : heap.store.Parameterized limit := by
  intro part path
  rw [eq_of_enters path]
  rfl

/-- The bound is left alone, so that the name which is bound still occurs. -/
theorem limit_mentions : heap.Holds limit ∧ heap.Binds numbers ∧ heap.store.Acyclic limit ∧
    heap.store.Parameterized limit ∧
    (∀ ⦃name other actual⦄, numbers.contains name = true →
      numbers.get? other = some actual → ¬heap.store.Mentions name actual) ∧
    ¬(limit.instantiate numbers).Gives heap.store fun result after =>
      ∀ name, numbers.contains name = true → ¬after.Mentions name result := by
  refine ⟨by simp [limit], binds, (Store.grounded_of_isCopied_eq rfl).acyclic, limit_parameterized,
    fresh, ?_⟩
  rintro ⟨result, after, run_eq, unmentioned⟩
  cases run_eq
  refine unmentioned "Element" rfl ?_
  exact Store.mentions_parameter_iff.mpr (.inr (Store.mentions_parameter_iff.mpr (.inl rfl)))

theorem range_mentions_iff : heap.Holds (.dataRef range) ∧ heap.Binds numbers ∧
    heap.store.Acyclic (.dataRef range) ∧ heap.store.Parameterized (.dataRef range) ∧
    (∀ ⦃name other actual⦄, numbers.contains name = true →
      numbers.get? other = some actual → ¬heap.store.Mentions name actual) ∧
    ((Ty.dataRef range).instantiate numbers).Gives heap.store fun result after =>
      ∀ name, numbers.contains name = true →
        (after.Mentions name result ↔ heap.store.Strands numbers name (.dataRef range)) := by
  have holds : heap.Holds (.dataRef range) := (Heap.holds_dataRef _).mpr (.head _)
  have leaf (name : String) (bound : Ty) : heap.store.Grounded (.parameter name bound) :=
    Store.grounded_of_isCopied_eq rfl
  have grounded : heap.store.Grounded (.dataRef range) :=
    Store.grounded_of_parts (List.forall_mem_cons.mpr
      ⟨leaf _ _, List.forall_mem_singleton.mpr (leaf _ _)⟩)
  have parameterized : heap.store.Parameterized (.dataRef range) := by
    intro part path
    rcases path.cases_head with rfl | ⟨parameter, enters, rest⟩
    · rfl
    · rcases List.mem_pair.mp enters.2 with rfl | rfl <;> rw [eq_of_enters rest] <;> rfl
  exact ⟨holds, binds, grounded.acyclic, parameterized, fresh,
    Heap.instantiate_mentions_iff holds binds grounded.acyclic parameterized fresh⟩

end Bounded

end Reification
