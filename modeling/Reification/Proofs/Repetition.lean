import Reification.Proofs.Meaning

/-!
# Repeated application

A declaration is coherent if its formal parameters stand for themselves wherever they occur in it.
What a coherent declaration is for some actual parameters, few or many of them, it is again for the
parameters of the result, of which only those matter that are given to type parameters.
-/

namespace Reification

namespace Tree

namespace Substitution

/-- Replaces type parameters by what is given and then by what is given later. -/
def andThen (given later : Substitution) : Substitution := fun name =>
  ((given name).map (subst later)).or (later name)

theorem foldl_bind_map (change : Tree → Tree) (formals : List Tree) {given other : Substitution}
    (other_eq : ∀ name, other name = (given name).map change) (name : String) :
    ((formals.zip (formals.map change)).foldl bind other) name =
      (((formals.zip formals).foldl bind given) name).map change := by
  induction formals generalizing given other with
  | nil => exact other_eq name
  | cons formal formals ih =>
    rw [List.map_cons, List.zip_cons_cons, List.foldl_cons, List.zip_cons_cons, List.foldl_cons]
    refine ih fun name => ?_
    cases formal with
    | parameter formal bound =>
      rw [bind, bind, Function.update_apply, Function.update_apply]
      split
      · rfl
      · exact other_eq name
    | _ => exact other_eq name

/-- Formal parameters which are changed are given what they give themselves, changed. -/
theorem ofParameters_map (change : Tree → Tree) (formals : List Tree) (name : String) :
    ofParameters formals (formals.map change) name =
      (ofParameters formals formals name).map change :=
  @foldl_bind_map change formals (fun _ => none) (fun _ => none) (fun _ => rfl) name

theorem foldl_bind_ne_none {formals : List Tree} {given : Substitution} {name : String}
    (some_given : given name ≠ none) : ((formals.zip formals).foldl bind given) name ≠ none := by
  induction formals generalizing given with
  | nil => exact some_given
  | cons formal formals ih =>
    refine ih ?_
    cases formal with
    | parameter formal bound =>
      rw [bind, Function.update_apply]
      split
      · exact nofun
      · exact some_given
    | _ => exact some_given

theorem foldl_bind_eq_none {formals actuals : List Tree} {given other : Substitution} {name : String}
    (given_eq : other name = none → given name = none)
    (unnamed : ((formals.zip formals).foldl bind other) name = none) :
    ((formals.zip actuals).foldl bind given) name = none := by
  induction formals generalizing actuals given other with
  | nil => exact given_eq unnamed
  | cons formal formals ih =>
    cases actuals with
    | nil =>
      refine given_eq ?_
      by_contra some_other
      exact foldl_bind_ne_none some_other unnamed
    | cons actual actuals =>
      refine ih (fun other_eq => ?_) unnamed
      cases formal with
      | parameter formal bound =>
        rw [bind, Function.update_apply] at other_eq ⊢
        split at other_eq
        · cases other_eq
        · next different => rw [if_neg different, given_eq other_eq]
      | _ => exact given_eq other_eq

/-- What no formal parameter is named is given nothing by any actual parameters. -/
theorem ofParameters_eq_none {formals : List Tree} {name : String}
    (unnamed : ofParameters formals formals name = none) (actuals : List Tree) :
    ofParameters formals actuals name = none :=
  @foldl_bind_eq_none formals actuals (fun _ => none) (fun _ => none) name (fun _ => rfl) unnamed

theorem mem_of_foldl_bind_self {formals : List Tree} {given : Substitution} {name : String}
    {actual : Tree} (given_eq : ((formals.zip formals).foldl bind given) name = some actual) :
    given name = some actual ∨ actual ∈ formals ∧ ∃ bound, actual = parameter name bound := by
  induction formals generalizing given with
  | nil => exact .inl given_eq
  | cons formal formals ih =>
    rcases ih given_eq with bound_eq | ⟨mem, is_parameter⟩
    · cases formal with
      | parameter other bound =>
        rw [bind, Function.update_apply] at bound_eq
        split at bound_eq
        · next same =>
          obtain rfl := Option.some.inj bound_eq
          exact .inr ⟨List.mem_cons_self .., bound, same ▸ rfl⟩
        · exact .inl bound_eq
      | _ => exact .inl bound_eq
    · exact .inr ⟨List.mem_cons_of_mem _ mem, is_parameter⟩

/-- Formal parameters give themselves to their names. -/
theorem mem_of_ofParameters_self {formals : List Tree} {name : String} {actual : Tree}
    (given_eq : ofParameters formals formals name = some actual) :
    actual ∈ formals ∧ ∃ bound, actual = parameter name bound :=
  (mem_of_foldl_bind_self given_eq).resolve_left nofun

/-- Actual parameters which are not given to type parameters do not matter. -/
theorem ofParameters_map_actuals {change : Tree → Tree} {formals actuals : List Tree}
    (unchanged : ∀ name bound actual, (parameter name bound, actual) ∈ formals.zip actuals →
      change actual = actual) :
    ofParameters formals (actuals.map change) = ofParameters formals actuals := by
  rw [ofParameters, ofParameters, List.zip_map_right, List.foldl_map]
  refine List.foldl_ext _ _ _ fun given pair mem => ?_
  obtain ⟨formal, actual⟩ := pair
  cases formal with
  | parameter name bound =>
    exact congrArg (fun actual => bind given (parameter name bound, actual))
      (unchanged name bound actual mem)
  | _ => rfl

end Substitution

/-- Replacing type parameters one after the other is replacing them at once. -/
theorem subst_subst (given later : Substitution) (tree : Tree) :
    (tree.subst given).subst later = tree.subst (given.andThen later) := by
  have all {trees : List Tree} (ih : ∀ tree ∈ trees,
      (tree.subst given).subst later = tree.subst (given.andThen later)) :
      (trees.map (subst given)).map (subst later) = trees.map (subst (given.andThen later)) := by
    rw [List.map_map]
    exact List.map_congr_left ih
  have fields {fields : List (Field Tree)} (ih : ∀ field ∈ fields,
      (field.type.subst given).subst later = field.type.subst (given.andThen later)) :
      (fields.map (Field.map (subst given))).map (Field.map (subst later)) =
        fields.map (Field.map (subst (given.andThen later))) := by
    rw [List.map_map]
    exact List.map_congr_left fun field mem => congrArg (Field.mk field.label) (ih field mem)
  induction tree using Tree.induction with
  | prim | sort => rfl
  | list _ ih | set _ ih | reified _ ih => simp only [subst, ih]
  | map _ _ ih_key ih_value => simp only [subst, ih_key, ih_value]
  | tuple _ ih => simp only [subst, substFields_eq, fields ih]
  | func _ _ ih ih_arguments => simp only [subst, substFields_eq, ih, fields ih_arguments]
  | parameter name bound =>
    rw [subst, subst, Substitution.andThen]
    cases given name <;> rfl
  | dataRef _ _ ih => simp only [subst, substAll_eq, all ih]
  | aliasRef _ _ body ih ih_body =>
    simp only [subst, substAll_eq, substBody_eq, all ih]
    cases body with
    | none => rfl
    | some body => simp only [Option.map_some, ih_body body rfl]
  | constructor _ parameters _ _ ih ih_fields =>
    by_cases none : parameters = []
    · subst none
      rfl
    · rw [subst_constructor given none, subst_constructor _ none,
        subst_constructor later (by simpa using none), all ih, fields ih_fields]

/-- Whether the formal parameters of a declaration stand for themselves wherever they occur. -/
def Coherent (declared : Tree) : Prop :=
  declared.subst (.ofParameters declared.parameters declared.parameters) = declared

/-- Whether a tree refers to a data type or to an alias. -/
inductive IsReference : Tree → Prop
  | dataRef (name : String) (parameters : List Tree) : IsReference (.dataRef name parameters)
  | aliasRef (name : String) (parameters : List Tree) (body : Option Tree) :
    IsReference (.aliasRef name parameters body)

theorem IsReference.parameters_subst {tree : Tree} (is_reference : tree.IsReference)
    (given : Substitution) : (tree.subst given).parameters = tree.parameters.map (subst given) := by
  cases is_reference <;> simp [subst, parameters]

theorem IsReference.applied {declared : Tree} (is_reference : declared.IsReference)
    (actuals : List Tree) : (declared.applied actuals).IsReference := by
  unfold Tree.applied
  split
  · exact is_reference
  · cases is_reference with
    | dataRef => exact .dataRef ..
    | aliasRef => exact .aliasRef ..

theorem IsReference.name?_applied {declared : Tree} (is_reference : declared.IsReference)
    (actuals : List Tree) : (declared.applied actuals).name? = declared.name? := by
  unfold Tree.applied
  split
  · rfl
  · cases is_reference <;> rfl

theorem IsReference.length_parameters_applied {declared : Tree} (is_reference : declared.IsReference)
    (actuals : List Tree) :
    (declared.applied actuals).parameters.length = declared.parameters.length := by
  unfold Tree.applied
  split
  · rfl
  · rw [is_reference.parameters_subst, List.length_map]

/-- A data type for actual parameters is a data type. -/
theorem applied_dataRef (name : String) (formals actuals : List Tree) :
    (dataRef name formals).applied actuals =
      dataRef name ((dataRef name formals).applied actuals).parameters := by
  unfold Tree.applied
  split <;> rfl

/-- Replacing the formal parameters of a coherent declaration by those of the result gives the
result. -/
theorem Coherent.subst_ofParameters {declared : Tree} (coherent : declared.Coherent)
    (actuals : List Tree) :
    declared.subst (.ofParameters declared.parameters
      (declared.parameters.map (subst (.ofParameters declared.parameters actuals)))) =
        declared.subst (.ofParameters declared.parameters actuals) := by
  have given_eq : Substitution.ofParameters declared.parameters
      (declared.parameters.map (subst (.ofParameters declared.parameters actuals))) =
        (Substitution.ofParameters declared.parameters declared.parameters).andThen
          (.ofParameters declared.parameters actuals) := by
    funext name
    rw [Substitution.ofParameters_map, Substitution.andThen]
    cases self_eq : Substitution.ofParameters declared.parameters declared.parameters name with
    | none => exact (Substitution.ofParameters_eq_none self_eq actuals).symm
    | some formal => rfl
  rw [given_eq, ← subst_subst, coherent]

/-- The formal parameters of a coherent declaration are replaced by as many actual ones. -/
theorem Coherent.applied_eq {declared : Tree} (coherent : declared.Coherent) {actuals : List Tree}
    (length_eq : actuals.length = declared.parameters.length) :
    declared.applied actuals = declared.subst (.ofParameters declared.parameters actuals) := by
  unfold applied
  split
  · next stays =>
    have actuals_eq : actuals = declared.parameters := by
      rcases stays with rfl | equal
      · exact (List.length_eq_zero_iff.mp length_eq.symm).symm
      · exact equal
    rw [actuals_eq]
    exact coherent.symm
  · rfl

/-- A coherent declaration is for the parameters of a result what this result is. -/
theorem Coherent.applied_parameters {declared : Tree} (coherent : declared.Coherent)
    (is_reference : declared.IsReference) (actuals : List Tree) :
    declared.applied (declared.applied actuals).parameters = declared.applied actuals := by
  by_cases stays : actuals = [] ∨ actuals = declared.parameters
  · rw [show declared.applied actuals = declared by rw [applied, if_pos stays], applied,
      if_pos (.inr rfl)]
  · have result_eq : declared.applied actuals =
        declared.subst (.ofParameters declared.parameters actuals) := by rw [applied, if_neg stays]
    rw [result_eq, is_reference.parameters_subst, coherent.applied_eq (List.length_map _)]
    exact coherent.subst_ofParameters actuals

/-- Those parameters of a result which are not given to type parameters do not matter. -/
theorem Coherent.applied_map_parameters {declared : Tree} (coherent : declared.Coherent)
    (is_reference : declared.IsReference) {actuals : List Tree} {change : Tree → Tree}
    (unchanged : ∀ name bound actual,
      (parameter name bound, actual) ∈
        declared.parameters.zip (declared.applied actuals).parameters → change actual = actual) :
    declared.applied ((declared.applied actuals).parameters.map change) =
      declared.applied actuals := by
  have length_eq := is_reference.length_parameters_applied actuals
  rw [coherent.applied_eq ((List.length_map _).trans length_eq),
    Substitution.ofParameters_map_actuals unchanged, ← coherent.applied_eq length_eq]
  exact coherent.applied_parameters is_reference actuals

/-- Formal parameters which are replaced by those of a result become the latter. -/
theorem Coherent.map_subst_parameters {declared : Tree} (coherent : declared.Coherent)
    (is_reference : declared.IsReference) {parameters : List Tree}
    (parameters_eq : (declared.applied parameters).parameters = parameters) :
    declared.parameters.map (subst (.ofParameters declared.parameters parameters)) = parameters := by
  unfold applied at parameters_eq
  split at parameters_eq
  · rw [← parameters_eq, ← is_reference.parameters_subst, coherent]
  · rw [← is_reference.parameters_subst, parameters_eq]

end Tree

end Reification
