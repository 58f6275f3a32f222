import Reification.Proofs.Mentions
import Reification.Proofs.Tree

/-!
# The meaning of symbols

A symbol means a tree once it is known what names stand for.  The alternatives of a name tell what
it stands for, up to its formal parameters and the bodies of aliases: what these show is given, and
it solves the equations which the alternatives state.
-/

namespace Reification

namespace Tree

mutual

/-- The text of the types which show a tree. -/
def display : Tree → String
  | prim primitive => primitive.name
  | list element => "list[" ++ element.display ++ "]"
  | set element => "set[" ++ element.display ++ "]"
  | map key value => "map[" ++ key.display ++ ", " ++ value.display ++ "]"
  | tuple fields => "tuple[" ++ ", ".intercalate (displayFields fields) ++ "]"
  | func result arguments =>
    result.display ++ " (" ++ ", ".intercalate (displayFields arguments) ++ ")"
  | reified inner => "type[" ++ inner.display ++ "]"
  | parameter name (prim .value) => "&" ++ name
  | parameter name bound => "&" ++ name ++ " <: " ++ bound.display
  | dataRef name parameters => name ++ bracketed (displayAll parameters)
  | aliasRef name parameters _ => name ++ bracketed (displayAll parameters)
  | constructor owner parameters name fields =>
    owner ++ bracketed (displayAll parameters) ++ "::" ++ name ++ "(" ++
      ", ".intercalate (displayFields fields) ++ ")"
  | sort name => name

/-- The texts of the types which show some trees. -/
def displayAll : List Tree → List String
  | [] => []
  | tree :: trees => tree.display :: displayAll trees

/-- The texts of the fields which show some trees. -/
def displayFields : List (Field Tree) → List String
  | [] => []
  | ⟨label, tree⟩ :: fields => labeled tree.display label :: displayFields fields

end

/-- The name of the data type which owns a constructor whose owner shows a tree. -/
def ownerName (tree : Tree) : String := tree.name?.getD tree.display

open Classical in
/-- A declaration for some actual parameters: the declaration itself if they are missing or equal
to the formal ones. -/
noncomputable def applied (declared : Tree) (actuals : List Tree) : Tree :=
  if actuals = [] ∨ actuals = declared.parameters then declared
  else declared.subst (.ofParameters declared.parameters actuals)

end Tree

/-- What names stand for when they are given no parameters. -/
abbrev Meaning := String → Option Tree

/-- A name with actual parameters.  A name which stands for nothing stays opaque. -/
noncomputable def Meaning.named (meaning : Meaning) (name : String) (actuals : List Tree) : Tree :=
  match meaning name with
  | some declared => declared.applied actuals
  | none => .dataRef name actuals

namespace Symbol

section Tree

variable (meaning : Meaning)

mutual

/-- The tree which a symbol means. -/
noncomputable def tree : Symbol → Tree
  | prim primitive => .prim primitive
  | label _ inner => inner.tree
  | list element => .list element.tree
  | set element => .set element.tree
  | map key value => .map key.tree value.tree
  | tuple fields => .tuple (fieldTrees fields)
  | func result arguments => .func result.tree (fieldTrees arguments)
  | reified inner => .reified inner.tree
  | parameter name bound => .parameter name bound.tree
  | dataRef name parameters => meaning.named name (trees parameters)
  | aliasRef name parameters => meaning.named name (trees parameters)
  | constructor owner name fields =>
    .constructor owner.tree.ownerName owner.tree.parameters name (fieldTrees fields)
  | sort name => .sort name

/-- The trees which some symbols mean. -/
noncomputable def trees : List Symbol → List Tree
  | [] => []
  | symbol :: symbols => symbol.tree :: trees symbols

/-- The fields which some symbols mean. -/
noncomputable def fieldTrees : List Symbol → List (Field Tree)
  | [] => []
  | symbol :: symbols => ⟨symbol.label?, symbol.tree⟩ :: fieldTrees symbols

end

@[simp]
theorem trees_eq (symbols : List Symbol) : trees meaning symbols = symbols.map (tree meaning) := by
  induction symbols with
  | nil => rfl
  | cons symbol symbols ih => simp [trees, ih]

@[simp]
theorem fieldTrees_eq (symbols : List Symbol) :
    fieldTrees meaning symbols =
      symbols.map fun symbol => ⟨symbol.label?, symbol.tree meaning⟩ := by
  induction symbols with
  | nil => rfl
  | cons symbol symbols ih => simp [fieldTrees, ih]

end Tree

/-- A symbol means the same tree if its names stand for the same. -/
theorem tree_congr {meaning other : Meaning} {symbol : Symbol}
    (same : ∀ name, symbol.Names name → meaning name = other name) :
    symbol.tree meaning = symbol.tree other := by
  have fields_congr {fields : List Symbol}
      (ih : ∀ field ∈ fields, field.tree meaning = field.tree other) :
      fields.map (fun symbol => Field.mk symbol.label? (symbol.tree meaning)) =
        fields.map fun symbol => ⟨symbol.label?, symbol.tree other⟩ :=
    List.map_congr_left fun field mem => congrArg (Field.mk field.label?) (ih field mem)
  induction symbol using Symbol.induction with
  | prim | sort => rfl
  | label _ _ ih => exact ih same
  | list _ ih | set _ ih | reified _ ih | parameter _ _ ih => simp [tree, ih same]
  | map _ _ ih_key ih_value =>
    simp only [names_map] at same
    simp [tree, ih_key fun _ names => same _ (.inl names),
      ih_value fun _ names => same _ (.inr names)]
  | tuple _ ih =>
    simp only [names_tuple] at same
    simpa [tree] using fields_congr fun field mem => ih field mem fun _ names =>
      same _ ⟨field, mem, names⟩
  | func _ _ ih ih_arguments =>
    simp only [names_func] at same
    simpa [tree, ih fun _ names => same _ (.inl names)] using
      fields_congr fun field mem => ih_arguments field mem fun _ names =>
        same _ (.inr ⟨field, mem, names⟩)
  | dataRef name parameters ih =>
    simp only [names_dataRef] at same
    have parameters_eq : parameters.map (tree meaning) = parameters.map (tree other) :=
      List.map_congr_left fun symbol mem => ih symbol mem fun _ names =>
        same _ (.inr ⟨symbol, mem, names⟩)
    simp [tree, Meaning.named, same name (.inl rfl), parameters_eq]
  | aliasRef name parameters ih =>
    simp only [names_aliasRef] at same
    have parameters_eq : parameters.map (tree meaning) = parameters.map (tree other) :=
      List.map_congr_left fun symbol mem => ih symbol mem fun _ names =>
        same _ (.inr ⟨symbol, mem, names⟩)
    simp [tree, Meaning.named, same name (.inl rfl), parameters_eq]
  | constructor _ _ _ ih ih_fields =>
    simp only [names_constructor] at same
    have fields_eq := fields_congr fun field mem => ih_fields field mem fun _ names =>
      same _ (.inr ⟨field, mem, names⟩)
    simpa [tree, ih fun _ names => same _ (.inl names)] using fields_eq

mutual

/-- The owners of the constructors in a symbol. -/
def owners : Symbol → List Symbol
  | prim _ | sort _ => []
  | label _ inner => inner.owners
  | list element => element.owners
  | set element => element.owners
  | map key value => key.owners ++ value.owners
  | tuple fields => ownersOfAll fields
  | func result arguments => result.owners ++ ownersOfAll arguments
  | reified inner => inner.owners
  | parameter _ bound => bound.owners
  | dataRef _ parameters => ownersOfAll parameters
  | aliasRef _ parameters => ownersOfAll parameters
  | constructor owner _ fields => owner :: (owner.owners ++ ownersOfAll fields)

/-- The owners of the constructors in some symbols. -/
def ownersOfAll : List Symbol → List Symbol
  | [] => []
  | symbol :: symbols => symbol.owners ++ ownersOfAll symbols

end

@[simp]
theorem ownersOfAll_eq (symbols : List Symbol) : ownersOfAll symbols = symbols.flatMap owners := by
  induction symbols with
  | nil => rfl
  | cons symbol symbols ih => simp [ownersOfAll, ih]

/-- The names in the owner of a constructor are mentioned with it. -/
theorem mem_mentions_of_mem_owners {symbol owner : Symbol} (mem : owner ∈ symbol.owners)
    {mention : Mention} (mention_mem : mention ∈ owner.mentions) : mention ∈ symbol.mentions := by
  have all {symbols : List Symbol} (ih : ∀ symbol ∈ symbols, owner ∈ symbol.owners →
      mention ∈ symbol.mentions) (mem : owner ∈ ownersOfAll symbols) :
      mention ∈ mentionsOfAll symbols := by
    rw [ownersOfAll_eq, List.mem_flatMap] at mem
    obtain ⟨symbol, symbol_mem, mem⟩ := mem
    rw [mentionsOfAll_eq]
    exact List.mem_flatMap.mpr ⟨symbol, symbol_mem, ih symbol symbol_mem mem⟩
  induction symbol using Symbol.induction with
  | prim | sort => cases mem
  | label _ _ ih | list _ ih | set _ ih | reified _ ih | parameter _ _ ih => exact ih mem
  | map _ _ ih_key ih_value =>
    exact List.mem_append.mpr ((List.mem_append.mp mem).imp ih_key ih_value)
  | tuple _ ih => exact all ih mem
  | func _ _ ih ih_arguments =>
    exact List.mem_append.mpr ((List.mem_append.mp mem).imp ih (all ih_arguments))
  | dataRef _ _ ih | aliasRef _ _ ih => exact List.mem_append_left _ (all ih mem)
  | constructor _ _ _ ih ih_fields =>
    rcases List.mem_cons.mp mem with rfl | mem
    · exact List.mem_append_left _ mention_mem
    · exact List.mem_append.mpr ((List.mem_append.mp mem).imp ih (all ih_fields))

end Symbol

namespace Reconstruct

/-- What the formal parameters of names and the bodies of aliases show. -/
structure Shapes where
  formals : String → List Tree
  body : String → Tree

/-- What the formal parameters of names show if no names in them stand for anything. -/
noncomputable def Shapes.plain (resolve : Resolver) (body : String → Tree) : Shapes where
  formals name := (formalsOf resolve name).map (Symbol.tree fun _ => none)
  body

theorem Shapes.formals_plain (resolve : Resolver) (body : String → Tree) (name : String) :
    (plain resolve body).formals name = (formalsOf resolve name).map (Symbol.tree fun _ => none) :=
  rfl

@[simp]
theorem Shapes.body_plain (resolve : Resolver) (body : String → Tree) :
    (plain resolve body).body = body := rfl

variable (resolve : Resolver) (shapes : Shapes)

open Classical in
/-- What names stand for by their alternatives if it is given what their formal parameters and the
bodies of aliases show.  The body of an alias without parameters is not unfolded. -/
noncomputable def meaning : Meaning := fun name =>
  match subjectOf? resolve name with
  | none => none
  | some (.aliasRef _ _) =>
    some (.aliasRef name (shapes.formals name)
      (if shapes.formals name = [] then none else some (shapes.body name)))
  | some _ => some (.dataRef name (shapes.formals name))

/-- The trees of the formal parameters of a name by its alternatives. -/
noncomputable def formalTrees (name : String) : List Tree :=
  (formalsOf resolve name).map (Symbol.tree (meaning resolve shapes))

/-- The tree of the body of an alias by its alternatives; an alias without a body stands for any
value. -/
noncomputable def bodyTree (name : String) : Tree :=
  match bodySymbol? (resolve name) with
  | some symbol => symbol.tree (meaning resolve shapes)
  | none => .prim .value

/-- Whether the formal parameters and the body of a name show what its alternatives state. -/
structure Solves (name : String) : Prop where
  formals_eq : (resolve name).first? ≠ none → shapes.formals name = formalTrees resolve shapes name
  body_eq : IsAlias resolve name → shapes.body name = bodyTree resolve shapes name

/-- Whether a constructor of a declared data type keeps its owner when the formal parameters are
replaced by those of the owner. -/
def Stable (owner : Symbol) : Prop :=
  ∀ formals, meaning resolve shapes (owner.tree (meaning resolve shapes)).ownerName =
      some (.dataRef (owner.tree (meaning resolve shapes)).ownerName formals) →
    formals.map (.subst (.ofParameters formals (owner.tree (meaning resolve shapes)).parameters)) =
      (owner.tree (meaning resolve shapes)).parameters

/-- What the alternatives of a name have to fulfil in order that it can be reconstructed. -/
structure Regular (name : String) : Prop where
  /-- The name is not met again in its formal parameters. -/
  direct : ¬ReachesItself resolve name
  /-- Constructors belong to data types which keep their parameters. -/
  stable : ∀ symbol ∈ formalsOf resolve name ++ contentsOf resolve name,
    ∀ owner ∈ symbol.owners, Stable resolve shapes owner
  solves : Solves resolve shapes name
  /-- An alias with parameters is not met again in its body. -/
  acyclic : IsAlias resolve name → formalsOf resolve name ≠ [] →
    ∀ symbol ∈ contentsOf resolve name, ¬Reaches resolve symbol name

section Plain

variable {resolve} {name : String}
  (plain : ∀ formal ∈ formalsOf resolve name, ∀ other, ¬formal.Names other)

include plain

/-- Formal parameters without names show the same whatever names stand for. -/
theorem plain_formals_eq (body : String → Tree) (meaning : Meaning) :
    (Shapes.plain resolve body).formals name =
      (formalsOf resolve name).map (Symbol.tree meaning) :=
  List.map_congr_left fun formal mem =>
    Symbol.tree_congr fun other names => absurd names (plain formal mem other)

theorem not_reachesItself_of_plain : ¬ReachesItself resolve name := by
  rintro ⟨formal, mem, first, names, -⟩
  exact plain formal mem first names

end Plain

end Reconstruct

end Reification
