import Reification.Proofs.Rebuilt
import Reification.Proofs.Recurrence

/-!
# Restorable symbols

A symbol is restorable if its names do not lead back to themselves through formal parameters, if its
aliases do not unfold to themselves and bounds depend only on the type parameter, if data types which
become opaque have formal parameters without names, and if neither nonterminals nor the data types
which are made up for constructors have the names of other declarations.  What its names stand for is
then coherent, and a reconstruction shows what the symbol means.
-/

namespace Reification

/-- A type parameter is meant only by a type parameter with its name. -/
theorem Symbol.exists_of_tree_eq_parameter {meaning : Meaning} {symbol : Symbol} {name : String}
    {bound : Tree}
    (declared : ∀ other tree, meaning other = some tree → tree.IsReference)
    (tree_eq : symbol.tree meaning = .parameter name bound) :
    ∃ found ∈ symbol.typeParameters, found.1 = name ∧ found.2.tree meaning = bound := by
  have no_parameter (other : String) (actuals : List Tree) :
      meaning.named other actuals ≠ .parameter name bound := fun named_eq => by
    have is_reference := Meaning.isReference_named (declared other) actuals
    rw [named_eq] at is_reference
    cases is_reference
  induction symbol using Symbol.induction with
  | label _ _ ih => exact ih tree_eq
  | parameter other inner =>
    obtain ⟨rfl, rfl⟩ := Tree.parameter.inj tree_eq
    exact ⟨_, List.mem_cons_self .., rfl, rfl⟩
  | dataRef | aliasRef => exact absurd tree_eq (no_parameter _ _)
  | _ => cases tree_eq

namespace Tree

/-- Whether a tree stays as it is when type parameters are replaced by themselves with the given
bounds. -/
def Fixed (bounds : String → Tree) (tree : Tree) : Prop :=
  ∀ given : Substitution, (∀ name actual, given name = some actual →
    actual = .parameter name (bounds name)) → tree.subst given = tree

variable {bounds : String → Tree}

theorem composes_fixed : Composes (Fixed bounds) where
  prim _ _ _ := rfl
  list fixed given selfish := congrArg list (fixed given selfish)
  set fixed given selfish := congrArg set (fixed given selfish)
  map key_fixed value_fixed given selfish :=
    congrArg₂ map (key_fixed given selfish) (value_fixed given selfish)
  tuple fixed given selfish := by
    rw [subst, substFields_eq]
    refine congrArg tuple ((List.map_congr_left fun field mem => ?_).trans (List.map_id _))
    exact congrArg (Field.mk field.label) (fixed field mem given selfish)
  func fixed fields_fixed given selfish := by
    rw [subst, substFields_eq, fixed given selfish]
    refine congrArg (func _) ((List.map_congr_left fun field mem => ?_).trans (List.map_id _))
    exact congrArg (Field.mk field.label) (fields_fixed field mem given selfish)
  reified fixed given selfish := congrArg reified (fixed given selfish)

theorem map_subst_of_fixed {trees : List Tree} (fixed : ∀ tree ∈ trees, tree.Fixed bounds)
    {given : Substitution} (selfish : ∀ name actual, given name = some actual →
      actual = .parameter name (bounds name)) : trees.map (subst given) = trees :=
  (List.map_congr_left fun tree mem => fixed tree mem given selfish).trans (List.map_id _)

theorem fixed_parameter (name : String) : (parameter name (bounds name)).Fixed bounds := by
  intro given selfish
  rw [subst]
  cases given_eq : given name with
  | none => rfl
  | some actual => exact selfish name actual given_eq

theorem Fixed.constructor {owner : Tree} (fixed : owner.Fixed bounds) {name : String}
    {fields : List (Field Tree)} (fields_fixed : ∀ field ∈ fields, field.type.Fixed bounds) :
    (Tree.constructor owner.ownerName owner.parameters name fields).Fixed bounds := by
  intro given selfish
  by_cases none_eq : owner.parameters = []
  · rw [none_eq]
    rfl
  · have fields_eq : fields.map (Field.map (subst given)) = fields :=
      (List.map_congr_left fun field mem => congrArg (Field.mk field.label)
        (fields_fixed field mem given selfish)).trans (List.map_id _)
    have parameters_eq : owner.parameters.map (subst given) = owner.parameters := by
      have owner_eq := congrArg parameters (fixed given selfish)
      cases owner with
      | dataRef name parameters => rwa [IsReference.parameters_subst (.dataRef ..)] at owner_eq
      | aliasRef name parameters body => rwa [IsReference.parameters_subst (.aliasRef ..)] at owner_eq
      | _ => rfl
    rw [subst_constructor given none_eq, fields_eq, parameters_eq]

/-- A tree stays as it is with type parameters replaced by trees which do. -/
theorem Fixed.spreads {tree : Tree} (fixed : tree.Fixed bounds) : tree.Spreads (Fixed bounds) := by
  refine ⟨fixed, fun given known self selfish => ?_⟩
  have given_eq : given.andThen self = self.andThen given := by
    funext name
    rw [Substitution.andThen, Substitution.andThen]
    cases given_eq : given name with
    | none =>
      cases self_eq : self name with
      | none => rfl
      | some actual =>
        obtain rfl := selfish name actual self_eq
        simp [subst, given_eq]
    | some actual =>
      have actual_eq := known name actual given_eq self selfish
      cases self_eq : self name with
      | none => simp [actual_eq]
      | some formal =>
        obtain rfl := selfish name formal self_eq
        simp [subst, given_eq, actual_eq]
  rw [subst_subst, given_eq, ← subst_subst, fixed self selfish]

end Tree

namespace Reconstruct

variable {resolve : Resolver} {definitions : Definitions} {symbol : Symbol} {shapes others : Shapes}
  {name other : String}

/-- Whether a symbol is a part of what a name stands for: a formal parameter, or the body of an alias
with formal parameters. -/
def HasPart (resolve : Resolver) (name : String) (part : Symbol) : Prop :=
  part ∈ formalsOf resolve name ∨
    IsAlias resolve name ∧ formalsOf resolve name ≠ [] ∧ part ∈ contentsOf resolve name

/-- Whether all type parameters with one name have the same bound in what a name stands for, and in
what the names in it stand for. -/
def Bounded (resolve : Resolver) (name : String) (bound : String → Symbol) : Prop :=
  ∀ other, Relation.ReflTransGen (fun user used => ∃ part, HasPart resolve user part ∧ part.Names used)
    name other → ∀ part, HasPart resolve other part → ∀ found ∈ part.typeParameters,
      found.2 = bound found.1

/-- Whether a name is mentioned in the formal parameters of another one or in the body of an alias. -/
def Opens (resolve : Resolver) (name other : String) : Prop :=
  ∃ part, (part ∈ formalsOf resolve name ∨ IsAlias resolve name ∧ part ∈ contentsOf resolve name) ∧
    part.Names other

/-- Whether a name is met when the names in a symbol are unfolded along with their formal
parameters. -/
def Opened (resolve : Resolver) (symbol : Symbol) (name : String) : Prop :=
  ∃ first, symbol.Names first ∧ Relation.ReflTransGen (Opens resolve) first name

/-- Whether the name of the data type which is made up for the owner of a constructor is not that of
another declaration: it has no alternatives, or it is mentioned and has no formal parameters. -/
def MadeUpFreely (resolve : Resolver) (owner : Symbol) : Prop :=
  ∀ shapes, (∀ name, Reaches resolve owner name → Solves resolve shapes name) →
    let name := (owner.tree (meaning resolve shapes)).ownerName
    (resolve name).first? = none ∨ owner.Names name ∧ formalsOf resolve name = []

/-- What a symbol and the alternatives of the names which it reaches have to fulfil in order that it
is restored from what is reified of it. -/
structure Restorable (resolve : Resolver) (symbol : Symbol) : Prop where
  /-- No name is met again in its formal parameters. -/
  direct : ∀ name, Reaches resolve symbol name → ¬ReachesItself resolve name
  bounded : ∀ name, Reaches resolve symbol name → ∃ bound, Bounded resolve name bound
  /-- A data type without constructors, which becomes opaque, mentions no names in its formal
  parameters. -/
  hidden : ∀ name, Reaches resolve symbol name → ¬IsAlias resolve name →
    (∀ production ∈ resolve name, production.name = none) →
      ∀ formal ∈ formalsOf resolve name, ∀ other, ¬formal.Names other
  /-- An alias with parameters is not met again in its body. -/
  acyclic : ∀ name, Reaches resolve symbol name → IsAlias resolve name →
    formalsOf resolve name ≠ [] → ∀ part ∈ contentsOf resolve name, ¬Reaches resolve part name
  /-- Nothing which is met by unfolding the symbol unfolds to itself. -/
  grounded : ∀ name, Opened resolve symbol name → ¬Relation.TransGen (Opens resolve) name name
  /-- Constructors belong to data types and aliases, or the data types made up for them are no other
  ones. -/
  owned : ∀ visited, GoesThrough resolve symbol visited → ∀ owner ∈ visited.owners,
    owner.IsReference ∨ MadeUpFreely resolve owner
  /-- No nonterminal has the name of a declaration. -/
  apart : ∀ name, (resolve name).first? ≠ none → Reaches resolve symbol name →
    ¬MeetsSort resolve symbol name

theorem contentsOf_alias (is_alias : IsAlias resolve name) :
    contentsOf resolve name = (bodySymbol? (resolve name)).toList := by
  obtain ⟨other, parameters, subject_eq⟩ := is_alias
  simp [contentsOf, subject_eq]

theorem Opens.leads (opens : Opens resolve name other) : Leads resolve name other := by
  obtain ⟨part, mem, names⟩ := opens
  exact ⟨part, List.mem_append.mpr (mem.imp_right And.right), names⟩

theorem HasPart.opens {part : Symbol} (has_part : HasPart resolve name part) (names : part.Names other) :
    Opens resolve name other :=
  ⟨part, has_part.imp_right fun ⟨is_alias, _, mem⟩ => ⟨is_alias, mem⟩, names⟩

theorem HasPart.some_formal {part : Symbol} (has_part : HasPart resolve name part) :
    formalsOf resolve name ≠ [] := by
  rcases has_part with mem | ⟨-, some_formal, -⟩
  · exact List.ne_nil_of_mem mem
  · exact some_formal

/-- What a name stands for depends on its body only if it is an alias with parameters. -/
theorem meaning_congr (formals_eq : shapes.formals name = others.formals name)
    (body_eq : IsAlias resolve name → shapes.formals name ≠ [] →
      shapes.body name = others.body name) :
    meaning resolve shapes name = meaning resolve others name := by
  by_cases is_alias : IsAlias resolve name
  · rw [meaning_of_alias is_alias, meaning_of_alias is_alias, ← formals_eq]
    by_cases none_eq : shapes.formals name = []
    · rw [if_pos none_eq, if_pos none_eq]
    · rw [if_neg none_eq, if_neg none_eq, body_eq is_alias none_eq]
  · rcases subject_eq : subjectOf? resolve name with _ | subject
    · simp [meaning, subject_eq]
    · rw [meaning_of_data (by simp [subject_eq]) is_alias,
        meaning_of_data (by simp [subject_eq]) is_alias, formals_eq]

theorem parameters_of_meaning {declared : Tree}
    (meaning_eq : meaning resolve shapes name = some declared) :
    declared.parameters = shapes.formals name := by
  unfold meaning at meaning_eq
  split at meaning_eq <;> cases meaning_eq <;> rfl

theorem isReference_of_meaning {declared : Tree}
    (meaning_eq : meaning resolve shapes name = some declared) :
    declared.IsReference ∧ declared.name? = some name := by
  unfold meaning at meaning_eq
  split at meaning_eq
  · cases meaning_eq
  · obtain rfl := Option.some.inj meaning_eq
    exact ⟨.aliasRef .., rfl⟩
  · obtain rfl := Option.some.inj meaning_eq
    exact ⟨.dataRef .., rfl⟩

theorem first?_of_meaning {declared : Tree}
    (meaning_eq : meaning resolve shapes name = some declared) : (resolve name).first? ≠ none :=
  fun none_eq => nomatch meaning_eq.symm.trans (meaning_eq_none none_eq)

theorem formalTrees_congr (same : ∀ part ∈ formalsOf resolve name, ∀ other, part.Names other →
      meaning resolve shapes other = meaning resolve others other) :
    formalTrees resolve shapes name = formalTrees resolve others name :=
  List.map_congr_left fun part mem => Symbol.tree_congr (same part mem)

theorem bodyTree_congr (is_alias : IsAlias resolve name)
    (same : ∀ part ∈ contentsOf resolve name, ∀ other, part.Names other →
      meaning resolve shapes other = meaning resolve others other) :
    bodyTree resolve shapes name = bodyTree resolve others name := by
  rw [contentsOf_alias is_alias] at same
  unfold bodyTree
  cases body_eq : bodySymbol? (resolve name) with
  | none => rfl
  | some part => exact Symbol.tree_congr (same part (by simp [body_eq]))

/-- A constructor keeps its owner if the name which the owner refers to stands for something
coherent. -/
theorem keeps_of_coherent {owner : Symbol} {actuals : List Tree}
    (tree_eq : owner.tree (meaning resolve shapes) = (meaning resolve shapes).named name actuals)
    (coherent : ∀ declared, meaning resolve shapes name = some declared → declared.Coherent) :
    (meaning resolve shapes).Keeps owner := by
  have name_eq : ((meaning resolve shapes).named name actuals).ownerName = name :=
    Meaning.ownerName_named (fun _ => isReference_of_meaning) actuals
  refine Meaning.keeps_of_named tree_eq ?_ (name_eq.symm ▸ coherent)
  rw [name_eq, Meaning.named_parameters fun declared meaning_eq =>
    ⟨(isReference_of_meaning meaning_eq).1, coherent declared meaning_eq⟩]

section Solves

variable (solves : Solves resolve shapes name)

include solves

theorem Solves.formals_eq_nil (none_eq : formalsOf resolve name = [])
    (some_alternative : (resolve name).first? ≠ none) : shapes.formals name = [] := by
  rw [solves.formals_eq some_alternative, formalTrees, none_eq, List.map_nil]

/-- What a name stands for is coherent if it stays as it is when type parameters are replaced by
themselves. -/
theorem Solves.coherent_of_fixed {bound : String → Symbol}
    (bounded : ∀ formal ∈ formalsOf resolve name, ∀ found ∈ formal.typeParameters,
      found.2 = bound found.1) {declared : Tree}
    (meaning_eq : meaning resolve shapes name = some declared)
    (fixed : declared.Fixed fun other => (bound other).tree (meaning resolve shapes)) :
    declared.Coherent := by
  refine fixed _ fun other actual given_eq => ?_
  obtain ⟨mem, other_bound, rfl⟩ := Tree.Substitution.mem_of_ofParameters_self given_eq
  rw [parameters_of_meaning meaning_eq, solves.formals_eq (first?_of_meaning meaning_eq)] at mem
  obtain ⟨formal, formal_mem, formal_eq⟩ := List.mem_map.mp mem
  obtain ⟨found, found_mem, rfl, rfl⟩ := Symbol.exists_of_tree_eq_parameter
    (fun _ _ meaning_eq => (isReference_of_meaning meaning_eq).1) formal_eq
  rw [bounded formal formal_mem found found_mem]

end Solves

section Fixed

variable {bounds : String → Tree}

/-- What a name stands for stays as it is if its formal parameters and its body do. -/
theorem fixed_of_meaning (formals_fixed : ∀ formal ∈ shapes.formals name, formal.Fixed bounds)
    (body_fixed : IsAlias resolve name → shapes.formals name ≠ [] → (shapes.body name).Fixed bounds)
    {declared : Tree} (meaning_eq : meaning resolve shapes name = some declared) :
    declared.Fixed bounds := by
  intro given selfish
  have formals_eq := Tree.map_subst_of_fixed formals_fixed selfish
  by_cases is_alias : IsAlias resolve name
  · rw [meaning_of_alias is_alias] at meaning_eq
    obtain rfl := Option.some.inj meaning_eq
    rw [Tree.subst, Tree.substAll_eq, Tree.substBody_eq, formals_eq]
    refine congrArg (Tree.aliasRef name _) ?_
    split
    · rfl
    · next some_formal => exact congrArg some (body_fixed is_alias some_formal given selfish)
  · have some_subject : subjectOf? resolve name ≠ none := fun none_eq => by
      simp [meaning, none_eq] at meaning_eq
    rw [meaning_of_data some_subject is_alias] at meaning_eq
    obtain rfl := Option.some.inj meaning_eq
    rw [Tree.subst, Tree.substAll_eq, formals_eq]

variable {bound : String → Symbol} {part : Symbol}

/-- What a symbol means stays as it is if what its names stand for does, and if type parameters of one
name have one bound in it. -/
theorem fixed_of_part (bounded : ∀ found ∈ part.typeParameters, found.2 = bound found.1)
    (named : ∀ other, part.Names other → ∀ declared, meaning resolve shapes other = some declared →
      declared.Fixed fun other => (bound other).tree (meaning resolve shapes)) :
    (part.tree (meaning resolve shapes)).Fixed
      fun other => (bound other).tree (meaning resolve shapes) := by
  have supports : part.Supports (meaning resolve shapes)
      (Tree.Fixed fun other => (bound other).tree (meaning resolve shapes)) :=
    { parameter := fun found found_mem _ => by
        rw [bounded found found_mem]
        exact Tree.fixed_parameter found.1
      named := fun other names actuals actuals_fixed => by
        rw [Meaning.named]
        split
        · next declared meaning_eq =>
          exact (named other names declared meaning_eq).spreads.applied actuals_fixed
        · intro given selfish
          rw [Tree.subst, Tree.substAll_eq, Tree.map_subst_of_fixed actuals_fixed selfish]
      constructor := fun owner _ _ _ owner_fixed fields_fixed =>
        owner_fixed.constructor fields_fixed
      sort := fun _ _ _ _ => rfl }
  exact supports.tree Tree.composes_fixed

end Fixed

/-- Whether a name with formal parameters is mentioned in the formal parameters or in the body of a
name. -/
def Nests (resolve : Resolver) (symbol : Symbol) (name other : String) : Prop :=
  Reaches resolve symbol name ∧ Opens resolve name other ∧ formalsOf resolve other ≠ []

open Classical in
/-- The shapes of names of which they are known.  What other names show does not matter. -/
noncomputable def Shapes.ofKnown (P : String → Prop)
    (known : ∀ name, P name → List Tree × Tree) : Shapes where
  formals name := if holds : P name then (known name holds).1 else []
  body name := if holds : P name then (known name holds).2 else .prim .value

section Solution

variable (well_founded : WellFounded fun other name => Nests resolve symbol name other)

/-- What the alternatives of a name state if it is known what the names show which nest in it. -/
noncomputable def stated (name : String)
    (known : ∀ other, Nests resolve symbol name other → List Tree × Tree) : List Tree × Tree :=
  (formalTrees resolve (.ofKnown _ known) name, bodyTree resolve (.ofKnown _ known) name)

/-- What names show, by recursion along their nesting. -/
noncomputable def solution : Shapes where
  formals name := (well_founded.fix stated name).1
  body name := (well_founded.fix stated name).2

/-- What the names show which nest in a name. -/
noncomputable def nested (name : String) : Shapes :=
  .ofKnown (Nests resolve symbol name) fun other _ => well_founded.fix stated other

theorem solution_eq (name : String) :
    (solution well_founded).formals name = formalTrees resolve (nested well_founded name) name ∧
      (solution well_founded).body name = bodyTree resolve (nested well_founded name) name :=
  Prod.mk.inj (well_founded.fix_eq stated name)

/-- What is mentioned in the parts of a name shows what nests in it, or has no formal parameters. -/
theorem meaning_nested (reaches : Reaches resolve symbol name) (opens : Opens resolve name other) :
    meaning resolve (nested well_founded name) other =
      meaning resolve (solution well_founded) other := by
  by_cases some_formal : formalsOf resolve other = []
  · have none_eq : (solution well_founded).formals other = [] := by
      rw [(solution_eq well_founded other).1, formalTrees, some_formal, List.map_nil]
    have not_nests : ¬Nests resolve symbol name other := fun nests => nests.2.2 some_formal
    exact meaning_congr ((dif_neg not_nests).trans none_eq.symm)
      fun _ some => absurd (dif_neg not_nests) some
  · have nests : Nests resolve symbol name other := ⟨reaches, opens, some_formal⟩
    exact meaning_congr (dif_pos nests) fun _ _ => dif_pos nests

theorem solution_solves (reaches : Reaches resolve symbol name) :
    Solves resolve (solution well_founded) name where
  formals_eq _ := by
    rw [(solution_eq well_founded name).1]
    exact formalTrees_congr fun part mem other names =>
      meaning_nested well_founded reaches ⟨part, .inl mem, names⟩
  body_eq is_alias := by
    rw [(solution_eq well_founded name).2]
    exact bodyTree_congr is_alias fun part mem other names =>
      meaning_nested well_founded reaches ⟨part, .inr ⟨is_alias, mem⟩, names⟩

end Solution

namespace Restorable

variable (restorable : Restorable definitions.alternativesOf symbol)

include restorable

/-- One can argue by induction along the nesting of names with formal parameters. -/
theorem nests_induction {P : String → Prop}
    (step : ∀ name, (∀ other, Nests definitions.alternativesOf symbol name other → P other) → P name)
    (name : String) : P name := by
  have bounded {name other : String} (nests : Nests definitions.alternativesOf symbol name other) :
      other ∈ definitions.names.toFinset :=
    mem_names_of_first? fun none_eq => nests.2.2 (by simp [formalsOf, subjectOf?, none_eq])
  refine induction_of_acyclic definitions.names.toFinset bounded (fun name cycle => ?_) step name
  obtain ⟨_, -, -, -, some_formal⟩ := Relation.TransGen.tail'_iff.mp cycle
  obtain ⟨next, ⟨reaches, ⟨part, mem, names⟩, -⟩, path⟩ := Relation.TransGen.head'_iff.mp cycle
  -- Whatever part of a name leads back to it, this part decides which condition is violated.
  have part_reaches : Reaches definitions.alternativesOf part name :=
    ⟨next, names, path.lift id fun _ _ nests => nests.2.1.leads⟩
  rcases mem with formal_mem | ⟨is_alias, content_mem⟩
  · exact restorable.direct name reaches ⟨part, formal_mem, part_reaches⟩
  · exact restorable.acyclic name reaches is_alias some_formal part content_mem part_reaches

/-- One can argue by induction along what names stand for. -/
theorem parts_induction {P : String → Prop}
    (step : ∀ name, Reaches definitions.alternativesOf symbol name →
      (∀ part, HasPart definitions.alternativesOf name part → ∀ other, part.Names other → P other) →
        P name) (reaches : Reaches definitions.alternativesOf symbol name) : P name := by
  refine restorable.nests_induction (P := fun name =>
    Reaches definitions.alternativesOf symbol name → P name) (fun name ih reaches => ?_) name reaches
  refine step name reaches fun part has_part other names => ?_
  have opens := has_part.opens names
  by_cases some_formal : formalsOf definitions.alternativesOf other = []
  · exact step other (reaches.leads opens.leads) fun _ has_part => absurd some_formal has_part.some_formal
  · exact ih other ⟨reaches, opens, some_formal⟩ (reaches.leads opens.leads)

/-- The equations which the alternatives state for formal parameters and for the bodies of aliases
have a solution. -/
theorem exists_shapes : ∃ shapes, ∀ name, Reaches definitions.alternativesOf symbol name →
    Solves definitions.alternativesOf shapes name := by
  have well_founded : WellFounded fun other name =>
      Nests definitions.alternativesOf symbol name other :=
    ⟨restorable.nests_induction fun _ ih => ⟨_, ih⟩⟩
  exact ⟨solution well_founded, fun _ => solution_solves well_founded⟩

section Solves

variable (solves : ∀ name, Reaches definitions.alternativesOf symbol name →
  Solves definitions.alternativesOf shapes name)

include solves

theorem fixed {bound : String → Symbol} (bounded : Bounded definitions.alternativesOf name bound)
    (reaches : Reaches definitions.alternativesOf symbol name) {declared : Tree}
    (meaning_eq : meaning definitions.alternativesOf shapes name = some declared) :
    declared.Fixed fun other => (bound other).tree (meaning definitions.alternativesOf shapes) := by
  refine restorable.parts_induction (P := fun name =>
    Bounded definitions.alternativesOf name bound →
      ∀ declared, meaning definitions.alternativesOf shapes name = some declared →
        declared.Fixed fun other => (bound other).tree (meaning definitions.alternativesOf shapes))
    (fun name reaches ih bounded declared meaning_eq => ?_) reaches bounded declared meaning_eq
  have part_fixed {part : Symbol} (has_part : HasPart definitions.alternativesOf name part) :
      (part.tree (meaning definitions.alternativesOf shapes)).Fixed
        fun other => (bound other).tree (meaning definitions.alternativesOf shapes) :=
    fixed_of_part (bounded name .refl part has_part) fun other names => ih part has_part other names
      fun last path => bounded last (.head ⟨part, has_part, names⟩ path)
  have some_alternative := first?_of_meaning meaning_eq
  refine fixed_of_meaning ?_ (fun is_alias some_formal => ?_) meaning_eq
  · rw [(solves name reaches).formals_eq some_alternative, formalTrees, List.forall_mem_map]
    exact fun formal mem => part_fixed (.inl mem)
  · rw [(solves name reaches).body_eq is_alias, bodyTree]
    rcases body_eq : bodySymbol? (definitions.alternativesOf name) with _ | part
    · exact fun _ _ => rfl
    · refine part_fixed (.inr ⟨is_alias, fun none_eq => some_formal ?_, ?_⟩)
      · exact (solves name reaches).formals_eq_nil none_eq some_alternative
      · simp [contentsOf_alias is_alias, body_eq]

/-- What a name which is reached stands for is coherent. -/
theorem coherent (reaches : Reaches definitions.alternativesOf symbol name) {declared : Tree}
    (meaning_eq : meaning definitions.alternativesOf shapes name = some declared) :
    declared.Coherent := by
  obtain ⟨bound, bounded⟩ := restorable.bounded name reaches
  exact (solves name reaches).coherent_of_fixed (fun formal mem => bounded name .refl formal (.inl mem))
    meaning_eq (restorable.fixed solves bounded reaches meaning_eq)

/-- The data type which is made up for the owner of a constructor is no other one. -/
theorem madeUp {visited owner : Symbol} (goes : GoesThrough definitions.alternativesOf symbol visited)
    (mem : owner ∈ visited.owners) (no_reference : ¬owner.IsReference) :
    let name := (owner.tree (meaning definitions.alternativesOf shapes)).ownerName
    (definitions.alternativesOf name).first? = none ∨
      owner.Names name ∧ formalsOf definitions.alternativesOf name = [] := by
  refine (restorable.owned visited goes owner mem).resolve_left no_reference shapes ?_
  rintro name ⟨first, names, path⟩
  exact solves name (goes.reaches_of_reaches
    ⟨first, Symbol.names_of_mem_owners mem names, path⟩)

/-- Constructors which are gone through keep their owners. -/
theorem keeps {visited owner : Symbol} (goes : GoesThrough definitions.alternativesOf symbol visited)
    (mem : owner ∈ visited.owners) : (meaning definitions.alternativesOf shapes).Keeps owner := by
  by_cases is_reference : owner.IsReference
  · obtain ⟨name, actuals, names, tree_eq⟩ :=
      is_reference.exists_named (meaning definitions.alternativesOf shapes)
    exact keeps_of_coherent tree_eq fun declared => restorable.coherent solves
      (goes.reaches (Symbol.names_of_mem_owners mem names))
  · intro formals meaning_eq
    rw [Symbol.parameters_eq_nil is_reference]
    have some_alternative := first?_of_meaning meaning_eq
    obtain ⟨names, none_eq⟩ :=
      (restorable.madeUp solves goes mem is_reference).resolve_left some_alternative
    have reaches := goes.reaches (Symbol.names_of_mem_owners mem names)
    have parameters_eq := parameters_of_meaning meaning_eq
    rw [(solves _ reaches).formals_eq_nil none_eq some_alternative] at parameters_eq
    obtain rfl : formals = [] := parameters_eq
    rfl

/-- The names which are reached can be reconstructed. -/
theorem regular (reaches : Reaches definitions.alternativesOf symbol name) :
    Regular definitions.alternativesOf shapes name where
  direct := restorable.direct name reaches
  stable _ mem _ owner_mem := restorable.keeps solves (.inr ⟨name, reaches, mem⟩) owner_mem
  solves := solves name reaches
  acyclic := restorable.acyclic name reaches

end Solves

end Restorable

end Reconstruct

end Reification
