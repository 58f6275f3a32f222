import Reification.Proofs.Entries
import Reification.Proofs.Meaning
import Reification.Proofs.Scope

/-!
# Formal parameters

Formal parameters are type parameters with distinct names whose bounds mention no declared names.
They are replaced by as many actual parameters one by one.
-/

namespace Reification

theorem Field.owners_symbol (label : Option String) (symbol : Symbol) :
    (Field.symbol ⟨label, symbol⟩).owners = symbol.owners := by
  cases label <;> rfl

namespace Tree

/-- Whether some trees are type parameters with distinct names. -/
def AreFormals (trees : List Tree) : Prop :=
  ∃ formals : List (String × Tree), (formals.map (·.1)).Nodup ∧
    trees = formals.map fun formal => .parameter formal.1 formal.2

/-- Distinct names are given what stands in their places. -/
theorem foldl_bind {formals : List (String × Tree)} (distinct : (formals.map (·.1)).Nodup)
    {actuals : List Tree} (length_eq : formals.length = actuals.length) (given : Substitution) :
    (∀ name, name ∉ formals.map (·.1) →
      (((formals.map fun formal => parameter formal.1 formal.2).zip actuals).foldl
        Substitution.bind given) name = given name) ∧
      List.Forall₂ (fun formal actual =>
        (((formals.map fun formal => parameter formal.1 formal.2).zip actuals).foldl
          Substitution.bind given) formal.1 = some actual) formals actuals := by
  induction formals generalizing actuals given with
  | nil =>
    obtain rfl := List.length_eq_zero_iff.mp length_eq.symm
    simp
  | cons formal formals ih =>
    obtain ⟨actual, actuals, rfl⟩ := List.exists_cons_of_length_eq_add_one length_eq.symm
    obtain ⟨not_mem, rest_distinct⟩ := List.nodup_cons.mp distinct
    obtain ⟨others_eq, given_eq⟩ := ih rest_distinct (by simpa using length_eq)
      (Function.update given formal.1 (some actual))
    simp only [List.map_cons, List.zip_cons_cons, List.foldl_cons, Substitution.bind]
    refine ⟨fun name fresh => ?_, .cons ?_ given_eq⟩
    · rw [List.mem_cons, not_or] at fresh
      rw [others_eq name fresh.2, Function.update_of_ne fresh.1]
    · rw [others_eq _ not_mem, Function.update_self]

/-- Distinct formal parameters are replaced by as many actual ones. -/
theorem AreFormals.map_subst {formals : List Tree} (are_formals : AreFormals formals)
    {actuals : List Tree} (length_eq : formals.length = actuals.length) :
    formals.map (subst (.ofParameters formals actuals)) = actuals := by
  obtain ⟨formals, distinct, rfl⟩ := are_formals
  have given_eq := (foldl_bind distinct (by simpa using length_eq) fun _ => none).2
  rw [List.map_map, ← List.forall₂_eq_eq_eq, List.forall₂_map_left_iff]
  refine given_eq.imp fun formal actual found => ?_
  rw [Function.comp_apply, subst, Substitution.ofParameters, found, Option.getD_some]

/-- A data type with distinct formal parameters is applied to as many actual ones. -/
theorem AreFormals.applied_dataRef {formals : List Tree} (are_formals : AreFormals formals)
    {actuals : List Tree} (length_eq : formals.length = actuals.length) (name : String) :
    (dataRef name formals).applied actuals = dataRef name actuals := by
  unfold applied
  split
  · next stays =>
    rcases stays with rfl | rfl
    · rw [List.length_eq_zero_iff.mp length_eq]
    · rfl
  · simp [subst, parameters, are_formals.map_subst length_eq]

end Tree

namespace Ty

/-- Whether some types are type parameters with distinct names whose bounds mention no declared
names. -/
def AreFormals (types : List Ty) : Prop :=
  ∃ formals : List (String × Ty), (formals.map (·.1)).Nodup ∧
    types = formals.map (fun formal => .parameter formal.1 formal.2) ∧
    ∀ formal ∈ formals, ∀ other, ¬formal.2.symbol.Names other

/-- The trees of some types in which no names stand for anything. -/
noncomputable def plainTrees (types : List Ty) : List Tree :=
  types.map fun type => type.symbol.tree fun _ => none

theorem AreFormals.not_names {types : List Ty} (are_formals : AreFormals types) {type : Ty}
    (mem : type ∈ types) (name : String) : ¬type.symbol.Names name := by
  obtain ⟨formals, -, rfl, plain⟩ := are_formals
  obtain ⟨formal, formal_mem, rfl⟩ := List.mem_map.mp mem
  simpa [symbol] using plain formal formal_mem name

theorem AreFormals.plainTrees {types : List Ty} (are_formals : AreFormals types) :
    Tree.AreFormals (plainTrees types) := by
  obtain ⟨formals, distinct, rfl, -⟩ := are_formals
  refine ⟨formals.map fun formal => (formal.1, formal.2.symbol.tree fun _ => none), ?_, ?_⟩
  · simpa [Function.comp_def] using distinct
  · simp [Ty.plainTrees, symbol, Symbol.tree]

/-- What names stand for does not matter for formal parameters. -/
theorem AreFormals.tree_eq {types : List Ty} (are_formals : AreFormals types) {type : Ty}
    (mem : type ∈ types) (meaning : Meaning) :
    type.symbol.tree meaning = type.symbol.tree fun _ => none :=
  Symbol.tree_congr fun name names => absurd names (are_formals.not_names mem name)

end Ty

namespace Scope

variable {scope : Scope}

/-- A type has the symbol of the tree which it shows. -/
theorem Denotes.symbol_eq {type : Ty} {tree : Tree} (denotes : scope.Denotes type tree) :
    type.symbol = tree.symbol := by
  have all {types : List Ty} {trees : List Tree} (known : List.Forall₂ (fun type tree =>
      ∃ _ : scope.Denotes type tree, type.symbol = tree.symbol) types trees) :
      types.map Ty.symbol = trees.map Tree.symbol := by
    induction known with
    | nil => rfl
    | cons head _ ih => rw [List.map_cons, List.map_cons, head.2, ih]
  have fields {fields : List (Field Ty)} {trees : List (Field Tree)}
      (known : List.Forall₂ (Field.Rel fun type tree => ∃ _ : scope.Denotes type tree,
        type.symbol = tree.symbol) fields trees) :
      fields.map (fun field => (field.map Ty.symbol).symbol) =
        trees.map fun field => (field.map Tree.symbol).symbol := by
    induction known with
    | nil => rfl
    | cons head _ ih =>
      rw [List.map_cons, List.map_cons, ih, Field.map, Field.map, head.1, head.2.2]
  induction denotes using Denotes.induction with
  | prim | sort => rfl
  | list _ _ _ ih | set _ _ _ ih | reified _ _ _ ih | parameter _ _ _ _ ih =>
    rw [Ty.symbol, Tree.symbol, ih]
  | map _ _ _ _ _ _ ih_key ih_value => rw [Ty.symbol, Tree.symbol, ih_key, ih_value]
  | tuple _ _ _ ih => simpa [Ty.symbol, Tree.symbol] using fields ih
  | func _ _ _ _ _ _ ih ih_arguments =>
    simpa [Ty.symbol, Tree.symbol, ih] using fields ih_arguments
  | dataRef _ _ _ _ ih => simpa [Ty.symbol, Tree.symbol] using all ih
  | leaf _ _ _ none => simp [Ty.symbol, Tree.symbol, none]
  | aliasRef _ _ _ _ _ _ _ _ _ ih => simpa [Ty.symbol, Tree.symbol] using all ih
  | constructor _ _ _ _ _ _ ih ih_fields =>
    simpa [Ty.symbol, Tree.symbol, all ih] using fields ih_fields

end Scope

end Reification
