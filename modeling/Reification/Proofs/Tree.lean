import Mathlib.Logic.Function.Basic
import Reification.Proofs.Heap
import Reification.Proofs.Mentions

/-!
# Trees

A tree is what a type shows apart from the objects in it and the attributes of constructors.  The
body of an alias is part of its tree, unless the alias has no parameters: such an alias is a leaf,
so that the tree stays finite although the alias may reach itself.
-/

namespace Reification

/-- The content of a type. -/
inductive Tree where
  | prim (primitive : Primitive)
  | list (element : Tree)
  | set (element : Tree)
  | map (key value : Tree)
  | tuple (fields : List (Field Tree))
  | func (result : Tree) (arguments : List (Field Tree))
  | reified (inner : Tree)
  | parameter (name : String) (bound : Tree)
  | dataRef (name : String) (parameters : List Tree)
  /-- An alias with its body, as far as that is unfolded. -/
  | aliasRef (name : String) (parameters : List Tree) (body : Option Tree)
  /-- A constructor of the data type `owner` with some parameters. -/
  | constructor (owner : String) (parameters : List Tree) (name : String)
    (fields : List (Field Tree))
  | sort (name : String)
  deriving Inhabited

/-- The field with its type changed. -/
def Field.map {α β : Type} (change : α → β) (field : Field α) : Field β :=
  ⟨field.label, change field.type⟩

/-- Whether two fields have the same label and related types. -/
def Field.Rel {α β : Type} (R : α → β → Prop) (field : Field α) (other : Field β) : Prop :=
  field.label = other.label ∧ R field.type other.type

/-- The symbol of a field: that of its type, with the label if there is one. -/
def Field.symbol (field : Field Symbol) : Symbol :=
  match field.label with
  | some label => .label label field.type
  | none => field.type

namespace Tree

/-- A claim about all trees follows from the claim for each kind of tree. -/
@[elab_as_elim]
theorem induction {P : Tree → Prop}
    (prim : ∀ primitive, P (.prim primitive))
    (list : ∀ element, P element → P (.list element))
    (set : ∀ element, P element → P (.set element))
    (map : ∀ key value, P key → P value → P (.map key value))
    (tuple : ∀ fields, (∀ field ∈ fields, P field.type) → P (.tuple fields))
    (func : ∀ result arguments, P result → (∀ field ∈ arguments, P field.type) →
      P (.func result arguments))
    (reified : ∀ inner, P inner → P (.reified inner))
    (parameter : ∀ name bound, P bound → P (.parameter name bound))
    (dataRef : ∀ name parameters, (∀ tree ∈ parameters, P tree) → P (.dataRef name parameters))
    (aliasRef : ∀ name parameters body, (∀ tree ∈ parameters, P tree) →
      (∀ tree ∈ body, P tree) → P (.aliasRef name parameters body))
    (constructor : ∀ owner parameters name fields, (∀ tree ∈ parameters, P tree) →
      (∀ field ∈ fields, P field.type) → P (.constructor owner parameters name fields))
    (sort : ∀ name, P (.sort name)) (tree : Tree) : P tree :=
  @Tree.rec P (fun fields => ∀ field ∈ fields, P field.type) (fun trees => ∀ tree ∈ trees, P tree)
    (fun body => ∀ tree ∈ body, P tree) (fun field => P field.type)
    prim list set map tuple func reified parameter dataRef aliasRef constructor sort
    (fun _ mem => nomatch mem)
    (fun _ _ head_known tail_known => List.forall_mem_cons.mpr ⟨head_known, tail_known⟩)
    (fun _ mem => nomatch mem)
    (fun _ _ head_known tail_known => List.forall_mem_cons.mpr ⟨head_known, tail_known⟩)
    (fun _ mem => nomatch mem) (fun _ known _ mem => Option.mem_some.mp mem ▸ known)
    (fun _ _ known => known) tree

/-- The name of the declaration which a tree refers to. -/
def name? : Tree → Option String
  | dataRef name _ | aliasRef name _ _ | constructor name _ _ _ | sort name => some name
  | _ => none

/-- The type parameters of a data type or an alias. -/
def parameters : Tree → List Tree
  | dataRef _ parameters | aliasRef _ parameters _ => parameters
  | _ => []

mutual

/-- The symbol of a tree. -/
def symbol : Tree → Symbol
  | prim primitive => .prim primitive
  | list element => .list element.symbol
  | set element => .set element.symbol
  | map key value => .map key.symbol value.symbol
  | tuple fields => .tuple (symbolsOfFields fields)
  | func result arguments => .func result.symbol (symbolsOfFields arguments)
  | reified inner => .reified inner.symbol
  | parameter name bound => .parameter name bound.symbol
  | dataRef name parameters => .dataRef name (symbols parameters)
  | aliasRef name parameters _ => .aliasRef name (symbols parameters)
  | constructor owner parameters name fields =>
    .constructor (.dataRef owner (symbols parameters)) name (symbolsOfFields fields)
  | sort name => .sort name

/-- The symbols of some trees. -/
def symbols : List Tree → List Symbol
  | [] => []
  | tree :: trees => tree.symbol :: symbols trees

/-- The symbols of some fields. -/
def symbolsOfFields : List (Field Tree) → List Symbol
  | [] => []
  | ⟨label, tree⟩ :: fields => Field.symbol ⟨label, tree.symbol⟩ :: symbolsOfFields fields

end

@[simp]
theorem symbols_eq (trees : List Tree) : symbols trees = trees.map symbol := by
  induction trees with
  | nil => rfl
  | cons tree trees ih => simp [symbols, ih]

@[simp]
theorem symbolsOfFields_eq (fields : List (Field Tree)) :
    symbolsOfFields fields = fields.map fun field => (field.map symbol).symbol := by
  induction fields with
  | nil => rfl
  | cons field fields ih => simp [symbolsOfFields, ih, Field.map]

mutual

/-- The names of the aliases in a tree whose bodies are not unfolded. -/
def leaves : Tree → List String
  | prim _ | sort _ => []
  | list element => element.leaves
  | set element => element.leaves
  | map key value => key.leaves ++ value.leaves
  | tuple fields => leavesOfFields fields
  | func result arguments => result.leaves ++ leavesOfFields arguments
  | reified inner => inner.leaves
  | parameter _ bound => bound.leaves
  | dataRef _ parameters => leavesOfAll parameters
  | aliasRef name parameters body => leavesOfAll parameters ++ leavesOfBody name body
  | constructor _ parameters _ fields => leavesOfAll parameters ++ leavesOfFields fields

/-- The names of the aliases in some trees whose bodies are not unfolded. -/
def leavesOfAll : List Tree → List String
  | [] => []
  | tree :: trees => tree.leaves ++ leavesOfAll trees

/-- The names of the aliases in some fields whose bodies are not unfolded. -/
def leavesOfFields : List (Field Tree) → List String
  | [] => []
  | ⟨_, tree⟩ :: fields => tree.leaves ++ leavesOfFields fields

/-- The names of the aliases in a body, or else of the alias which it belongs to. -/
def leavesOfBody (name : String) : Option Tree → List String
  | none => [name]
  | some body => body.leaves

end

@[simp]
theorem leavesOfAll_eq (trees : List Tree) : leavesOfAll trees = trees.flatMap leaves := by
  induction trees with
  | nil => rfl
  | cons tree trees ih => simp [leavesOfAll, ih]

@[simp]
theorem leavesOfFields_eq (fields : List (Field Tree)) :
    leavesOfFields fields = fields.flatMap (·.type.leaves) := by
  induction fields with
  | nil => rfl
  | cons field fields ih => simp [leavesOfFields, ih]

/-- Trees which are given to the names of type parameters. -/
abbrev Substitution := String → Option Tree

/-- Gives a tree to one formal parameter, unless it is no type parameter. -/
def Substitution.bind (given : Substitution) : Tree × Tree → Substitution
  | (parameter name _, actual) => Function.update given name (some actual)
  | _ => given

/-- Gives actual to formal parameters. -/
def Substitution.ofParameters (formals actuals : List Tree) : Substitution :=
  (formals.zip actuals).foldl bind fun _ => none

mutual

/-- Replaces the type parameters which are given trees, but not those in bounds.  A constructor of a
data type without parameters stays as it is. -/
def subst (given : Substitution) : Tree → Tree
  | prim primitive => prim primitive
  | list element => list (element.subst given)
  | set element => set (element.subst given)
  | map key value => map (key.subst given) (value.subst given)
  | tuple fields => tuple (substFields given fields)
  | func result arguments => func (result.subst given) (substFields given arguments)
  | reified inner => reified (inner.subst given)
  | parameter name bound => (given name).getD (parameter name bound)
  | dataRef name parameters => dataRef name (substAll given parameters)
  | aliasRef name parameters body => aliasRef name (substAll given parameters) (substBody given body)
  | constructor owner [] name fields => constructor owner [] name fields
  | constructor owner (first :: rest) name fields =>
    constructor owner (first.subst given :: substAll given rest) name (substFields given fields)
  | sort name => sort name

/-- Replaces type parameters in some trees. -/
def substAll (given : Substitution) : List Tree → List Tree
  | [] => []
  | tree :: trees => tree.subst given :: substAll given trees

/-- Replaces type parameters in some fields. -/
def substFields (given : Substitution) : List (Field Tree) → List (Field Tree)
  | [] => []
  | ⟨label, tree⟩ :: fields => ⟨label, tree.subst given⟩ :: substFields given fields

/-- Replaces type parameters in a body. -/
def substBody (given : Substitution) : Option Tree → Option Tree
  | none => none
  | some body => some (body.subst given)

end

section Subst

variable (given : Substitution)

@[simp]
theorem substAll_eq (trees : List Tree) : substAll given trees = trees.map (subst given) := by
  induction trees with
  | nil => rfl
  | cons tree trees ih => simp [substAll, ih]

@[simp]
theorem substFields_eq (fields : List (Field Tree)) :
    substFields given fields = fields.map (Field.map (subst given)) := by
  induction fields with
  | nil => rfl
  | cons field fields ih => simp [substFields, ih, Field.map]

@[simp]
theorem substBody_eq (body : Option Tree) : substBody given body = body.map (subst given) := by
  cases body <;> rfl

theorem subst_constructor {parameters : List Tree} (some_parameter : parameters ≠ [])
    (owner name : String) (fields : List (Field Tree)) :
    subst given (constructor owner parameters name fields) =
      constructor owner (parameters.map (subst given)) name
        (fields.map (Field.map (subst given))) := by
  cases parameters with
  | nil => exact absurd rfl some_parameter
  | cons first rest => simp [subst]

end Subst

end Tree

end Reification
