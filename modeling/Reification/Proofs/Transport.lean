import Reification.Proofs.Composition
import Reification.Proofs.Likeness

/-!
# Equal types show equal trees

What types of a scope show does not depend on what is made later.  A type which equals one that shows
a tree shows that tree, provided that an alias which equals one that stands for a declaration stands
for it as well.
-/

namespace Reification

namespace Scope

variable {scope wider : Scope}

/-- Whether an alias stands for a declaration as soon as it equals one which does. -/
structure LeavesClosed (scope : Scope) : Prop where
  known : ∀ {reference}, scope.Leaf reference → scope.Known (.aliasRef reference)
  leaf_of_same : ∀ {left right}, scope.Leaf left → scope.Known (.aliasRef right) →
    scope.store.same (.aliasRef left) (.aliasRef right) = some true → scope.Leaf right

/-- A type of a scope shows what an equal type shows, even if that has been made later. -/
theorem Denotes.of_same (closed : scope.LeavesClosed) (growsTo : scope.GrowsTo wider)
    {left right : Ty} {tree : Tree} (denotes : wider.Denotes left tree) (holds : scope.Holds right)
    (equal : wider.store.same left right = some true) : scope.Denotes right tree := by
  have all {lefts rights : List Ty} {trees : List Tree} (known : List.Forall₂ (fun left tree =>
      ∃ _ : wider.Denotes left tree, ∀ {right}, scope.Holds right →
        wider.store.same left right = some true → scope.Denotes right tree) lefts trees)
      (hold : ∀ right ∈ rights, scope.Holds right) (equal : List.Forall₂ (fun left right =>
        wider.store.same left right = some true) lefts rights) :
      scope.DenoteAll rights trees := by
    induction known generalizing rights with
    | nil =>
      cases equal
      exact .nil
    | cons head _ ih =>
      cases equal with
      | cons head_equal tail_equal =>
        obtain ⟨head_holds, tail_hold⟩ := List.forall_mem_cons.mp hold
        exact .cons (head.2 head_holds head_equal) (ih tail_hold tail_equal)
  have fields {lefts rights : List (Field Ty)} {trees : List (Field Tree)}
      (known : List.Forall₂ (Field.Rel fun left tree => ∃ _ : wider.Denotes left tree,
        ∀ {right}, scope.Holds right → wider.store.same left right = some true →
          scope.Denotes right tree) lefts trees)
      (hold : ∀ field ∈ rights, scope.Holds field.type)
      (equal : List.Forall₂ (fun left right => left.label = right.label ∧
        wider.store.same left.type right.type = some true) lefts rights) :
      scope.DenoteFields rights trees := by
    induction known generalizing rights with
    | nil =>
      cases equal
      exact .nil
    | @cons field tree _ _ head _ ih =>
      obtain ⟨label, left⟩ := field
      obtain ⟨_, tree⟩ := tree
      obtain ⟨rfl, _, head⟩ := head
      cases equal with
      | @cons _ other _ _ head_equal tail_equal =>
        obtain ⟨_, right⟩ := other
        obtain ⟨rfl, head_equal⟩ := head_equal
        obtain ⟨head_holds, tail_hold⟩ := List.forall_mem_cons.mp hold
        exact .cons _ (head head_holds head_equal) (ih tail_hold tail_equal)
  induction denotes using Denotes.induction generalizing right with
  | prim =>
    obtain rfl := Ty.prim_sameWith_iff.mp equal
    exact .prim _
  | sort =>
    obtain rfl := Ty.sort_sameWith_iff.mp equal
    exact .sort _
  | list _ _ _ ih =>
    obtain ⟨_, rfl, element⟩ := Ty.list_sameWith_iff.mp equal
    exact .list (ih (Heap.holds_list _ |>.mp holds) element)
  | set _ _ _ ih =>
    obtain ⟨_, rfl, element⟩ := Ty.set_sameWith_iff.mp equal
    exact .set (ih (Heap.holds_set _ |>.mp holds) element)
  | reified _ _ _ ih =>
    obtain ⟨_, rfl, inner⟩ := Ty.reified_sameWith_iff.mp equal
    exact .reified (ih (Heap.holds_reified _ |>.mp holds) inner)
  | parameter name _ _ _ ih =>
    obtain ⟨_, rfl, bound⟩ := Ty.parameter_sameWith_iff.mp equal
    exact .parameter name (ih (Heap.holds_parameter _ _ |>.mp holds) bound)
  | map _ _ _ _ _ _ ih_key ih_value =>
    obtain ⟨_, _, rfl, key, value⟩ := Ty.map_sameWith_iff.mp equal
    obtain ⟨key_holds, value_holds⟩ := (Heap.holds_map _ _).mp holds
    exact .map (ih_key key_holds key) (ih_value value_holds value)
  | tuple _ _ _ ih =>
    obtain ⟨_, rfl, others⟩ := Ty.tuple_sameWith_iff.mp equal
    exact .tuple (fields ih ((Heap.holds_tuple _).mp holds) others)
  | func _ _ _ _ _ _ ih ih_arguments =>
    obtain ⟨_, _, rfl, result, arguments⟩ := Ty.func_sameWith_iff.mp equal
    obtain ⟨result_holds, arguments_hold⟩ := (Heap.holds_func _ _).mp holds
    exact .func (ih result_holds result) (fields ih_arguments arguments_hold arguments)
  | dataRef left trees known _ ih =>
    obtain ⟨right, rfl, -⟩ := Ty.dataRef_sameWith_iff.mp equal
    have right_known := (Heap.holds_dataRef right).mp holds
    obtain ⟨name_eq, parameters⟩ :=
      Heap.same_dataRef known (growsTo.known right_known) equal
    rw [name_eq]
    exact .dataRef right_known
      (all ih (fun _ => Heap.holds_of_mem_parameters right_known) parameters)
  | leaf left known leaf none =>
    obtain ⟨right, rfl, -⟩ := Ty.aliasRef_sameWith_iff.mp equal
    have right_known := (Heap.holds_aliasRef right).mp holds
    obtain ⟨name_eq, parameters, -⟩ :=
      Heap.same_aliasRef known (growsTo.known right_known) equal
    have right_none : right.parameters = [] := by simpa [none] using parameters
    have left_leaf : scope.Leaf left := growsTo.leaf_eq ▸ leaf
    have left_holds := (Heap.holds_aliasRef left).mpr (closed.known left_leaf)
    rw [name_eq]
    exact .leaf right_known (closed.leaf_of_same left_leaf right_known
      ((Heap.same_grows growsTo.grows left_holds holds).mp equal)) right_none
  | aliasRef left body trees tree known some_parameter body_eq _ _ ih ih_body =>
    obtain ⟨right, rfl, -⟩ := Ty.aliasRef_sameWith_iff.mp equal
    have right_known := (Heap.holds_aliasRef right).mp holds
    obtain ⟨name_eq, parameters, bodies⟩ :=
      Heap.same_aliasRef known (growsTo.known right_known) equal
    have right_some : right.parameters ≠ [] := fun none =>
      some_parameter (by simpa [none] using parameters)
    rw [Store.sameBody, body_eq, growsTo.grows.body?_eq (scope.made right_known)] at bodies
    rcases other_eq : scope.store.body? right with _ | other
    · simp [other_eq] at bodies
    · rw [other_eq] at bodies
      rw [name_eq]
      exact .aliasRef right_known right_some other_eq
        (all ih (fun _ => Heap.holds_of_mem_parameters_alias right_known) parameters)
        (ih_body (Heap.holds_body right_known other_eq) bodies)
  | constructor left trees _ known _ _ ih ih_fields =>
    obtain ⟨right, rfl, -⟩ := Ty.constructor_sameWith_iff.mp equal
    have right_known := (Heap.holds_constructor right).mp holds
    obtain ⟨owners, name_eq, same_fields⟩ :=
      Heap.same_constructor known (growsTo.known right_known) equal
    have owner_known := Heap.known_owner right_known
    obtain ⟨owner_eq, parameters⟩ :=
      Heap.same_dataRef (Heap.known_owner known) (growsTo.known owner_known) owners
    rw [name_eq, owner_eq]
    exact .constructor right_known
      (all ih (fun _ => Heap.holds_of_mem_parameters owner_known) parameters)
      (fields ih_fields (fun _ => Heap.holds_of_mem_fields right_known) same_fields)

end Scope

end Reification
