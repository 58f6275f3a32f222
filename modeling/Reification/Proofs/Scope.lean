import Reification.Proofs.Tree

/-!
# Scopes

A scope is a heap together with the aliases without parameters which stand for a declaration.  A
type in a scope denotes a tree if the bodies of its other aliases are known and can be unfolded to
the end.
-/

namespace Reification

/-- A heap with the aliases without parameters that stand for a declaration. -/
structure Scope extends Heap where
  /-- The aliases whose bodies are not unfolded. -/
  Leaf : AliasRef Ty → Prop

namespace Scope

mutual

/-- A type shows a tree when the bodies of its aliases with parameters are unfolded. -/
inductive Denotes (scope : Scope) : Ty → Tree → Prop
  | prim (primitive : Primitive) : Denotes scope (.prim primitive) (.prim primitive)
  | list {element : Ty} {tree : Tree} : Denotes scope element tree →
    Denotes scope (.list element) (.list tree)
  | set {element : Ty} {tree : Tree} : Denotes scope element tree →
    Denotes scope (.set element) (.set tree)
  | map {key value : Ty} {keyTree valueTree : Tree} : Denotes scope key keyTree →
    Denotes scope value valueTree → Denotes scope (.map key value) (.map keyTree valueTree)
  | tuple {fields : List (Field Ty)} {trees : List (Field Tree)} : DenoteFields scope fields trees →
    Denotes scope (.tuple fields) (.tuple trees)
  | func {result : Ty} {arguments : List (Field Ty)} {tree : Tree} {trees : List (Field Tree)} :
    Denotes scope result tree → DenoteFields scope arguments trees →
    Denotes scope (.func result arguments) (.func tree trees)
  | reified {inner : Ty} {tree : Tree} : Denotes scope inner tree →
    Denotes scope (.reified inner) (.reified tree)
  | parameter (name : String) {bound : Ty} {tree : Tree} : Denotes scope bound tree →
    Denotes scope (.parameter name bound) (.parameter name tree)
  | dataRef {reference : DataRef Ty} {trees : List Tree} : scope.Known (.dataRef reference) →
    DenoteAll scope reference.parameters trees →
    Denotes scope (.dataRef reference) (.dataRef reference.name trees)
  | leaf {reference : AliasRef Ty} : scope.Known (.aliasRef reference) → scope.Leaf reference →
    reference.parameters = [] → Denotes scope (.aliasRef reference) (.aliasRef reference.name [] none)
  | aliasRef {reference : AliasRef Ty} {body : Ty} {trees : List Tree} {tree : Tree} :
    scope.Known (.aliasRef reference) → reference.parameters ≠ [] →
    scope.store.body? reference = some body → DenoteAll scope reference.parameters trees →
    Denotes scope body tree →
    Denotes scope (.aliasRef reference) (.aliasRef reference.name trees (some tree))
  | constructor {reference : Constructor Ty} {trees : List Tree} {fields : List (Field Tree)} :
    scope.Known (.constructor reference) → DenoteAll scope reference.owner.parameters trees →
    DenoteFields scope reference.fields fields →
    Denotes scope (.constructor reference)
      (.constructor reference.owner.name trees reference.name fields)
  | sort (name : String) : Denotes scope (.sort name) (.sort name)

/-- Some types show some trees. -/
inductive DenoteAll (scope : Scope) : List Ty → List Tree → Prop
  | nil : DenoteAll scope [] []
  | cons {type : Ty} {tree : Tree} {types : List Ty} {trees : List Tree} :
    Denotes scope type tree → DenoteAll scope types trees →
    DenoteAll scope (type :: types) (tree :: trees)

/-- Some fields show some fields with the same labels. -/
inductive DenoteFields (scope : Scope) : List (Field Ty) → List (Field Tree) → Prop
  | nil : DenoteFields scope [] []
  | cons (label : Option String) {type : Ty} {tree : Tree} {fields : List (Field Ty)}
    {trees : List (Field Tree)} : Denotes scope type tree → DenoteFields scope fields trees →
    DenoteFields scope (⟨label, type⟩ :: fields) (⟨label, tree⟩ :: trees)

end

theorem denoteAll_iff {scope : Scope} {types : List Ty} {trees : List Tree} :
    scope.DenoteAll types trees ↔ List.Forall₂ scope.Denotes types trees := by
  constructor
  · intro denote
    induction types generalizing trees with
    | nil =>
      cases denote
      exact .nil
    | cons type types ih =>
      cases denote with
      | cons head tail => exact .cons head (ih tail)
  · intro denote
    induction denote with
    | nil => exact .nil
    | cons head _ ih => exact .cons head ih

theorem denoteFields_iff {scope : Scope} {fields : List (Field Ty)} {trees : List (Field Tree)} :
    scope.DenoteFields fields trees ↔ List.Forall₂ (Field.Rel scope.Denotes) fields trees := by
  constructor
  · intro denote
    induction fields generalizing trees with
    | nil =>
      cases denote
      exact .nil
    | cons field fields ih =>
      cases denote with
      | cons label head tail => exact .cons ⟨rfl, head⟩ (ih tail)
  · intro denote
    induction denote with
    | nil => exact .nil
    | @cons field tree _ _ head _ ih =>
      obtain ⟨label, type⟩ := field
      obtain ⟨_, tree⟩ := tree
      obtain ⟨rfl, head⟩ := head
      exact .cons label head ih

/-- What is related to a member of the first of two lists which are related. -/
theorem exists_of_forall₂ {α β : Type} {R : α → β → Prop} {lefts : List α} {rights : List β}
    (known : List.Forall₂ R lefts rights) {left : α} (mem : left ∈ lefts) :
    ∃ right ∈ rights, R left right := by
  induction known with
  | nil => cases mem
  | cons head tail ih =>
    rcases List.mem_cons.mp mem with rfl | mem
    · exact ⟨_, List.mem_cons_self .., head⟩
    · obtain ⟨right, right_mem, related⟩ := ih mem
      exact ⟨right, List.mem_cons_of_mem _ right_mem, related⟩

/-- A claim about what types show follows from the claim for each kind of type. -/
@[elab_as_elim]
theorem Denotes.induction {scope : Scope} {P : ∀ type tree, scope.Denotes type tree → Prop}
    (prim : ∀ primitive, P _ _ (.prim primitive))
    (list : ∀ element tree (denotes : scope.Denotes element tree), P _ _ denotes →
      P _ _ (.list denotes))
    (set : ∀ element tree (denotes : scope.Denotes element tree), P _ _ denotes →
      P _ _ (.set denotes))
    (map : ∀ key value keyTree valueTree (key_denotes : scope.Denotes key keyTree)
      (value_denotes : scope.Denotes value valueTree), P _ _ key_denotes → P _ _ value_denotes →
      P _ _ (.map key_denotes value_denotes))
    (tuple : ∀ fields trees (denote : scope.DenoteFields fields trees),
      List.Forall₂ (Field.Rel fun type tree => ∃ denotes, P type tree denotes) fields trees →
      P _ _ (.tuple denote))
    (func : ∀ result arguments tree trees (denotes : scope.Denotes result tree)
      (denote : scope.DenoteFields arguments trees), P _ _ denotes →
      List.Forall₂ (Field.Rel fun type tree => ∃ denotes, P type tree denotes) arguments trees →
      P _ _ (.func denotes denote))
    (reified : ∀ inner tree (denotes : scope.Denotes inner tree), P _ _ denotes →
      P _ _ (.reified denotes))
    (parameter : ∀ name bound tree (denotes : scope.Denotes bound tree), P _ _ denotes →
      P _ _ (.parameter name denotes))
    (dataRef : ∀ reference trees (known : scope.Known (.dataRef reference))
      (denote : scope.DenoteAll reference.parameters trees),
      List.Forall₂ (fun type tree => ∃ denotes, P type tree denotes) reference.parameters trees →
      P _ _ (.dataRef known denote))
    (leaf : ∀ reference (known : scope.Known (.aliasRef reference)) (leaf : scope.Leaf reference)
      (none : reference.parameters = []), P _ _ (.leaf known leaf none))
    (aliasRef : ∀ reference body trees tree (known : scope.Known (.aliasRef reference))
      (some_parameter : reference.parameters ≠ [])
      (body_eq : scope.store.body? reference = some body)
      (denote : scope.DenoteAll reference.parameters trees) (denotes : scope.Denotes body tree),
      List.Forall₂ (fun type tree => ∃ denotes, P type tree denotes) reference.parameters trees →
      P _ _ denotes → P _ _ (.aliasRef known some_parameter body_eq denote denotes))
    (constructor : ∀ reference trees fields (known : scope.Known (.constructor reference))
      (denote : scope.DenoteAll reference.owner.parameters trees)
      (denote_fields : scope.DenoteFields reference.fields fields),
      List.Forall₂ (fun type tree => ∃ denotes, P type tree denotes) reference.owner.parameters
        trees →
      List.Forall₂ (Field.Rel fun type tree => ∃ denotes, P type tree denotes) reference.fields
        fields → P _ _ (.constructor known denote denote_fields))
    (sort : ∀ name, P _ _ (.sort name)) {type : Ty} {tree : Tree}
    (denotes : scope.Denotes type tree) : P type tree denotes :=
  @Denotes.rec scope P
    (fun types trees _ =>
      List.Forall₂ (fun type tree => ∃ denotes, P type tree denotes) types trees)
    (fun fields trees _ =>
      List.Forall₂ (Field.Rel fun type tree => ∃ denotes, P type tree denotes) fields trees)
    prim (list _ _) (set _ _) (map _ _ _ _) (tuple _ _) (func _ _ _ _) (reified _ _)
    (fun name _ _ => parameter name _ _) (dataRef _ _) (leaf _) (aliasRef _ _ _ _)
    (constructor _ _ _) sort .nil
    (fun denotes _ known => .cons ⟨denotes, known⟩) .nil
    (@fun _ _ _ _ _ denotes _ known => .cons ⟨rfl, denotes, known⟩)
    type tree denotes

variable {scope wider widest : Scope}

/-- What shows a tree lies in the heap. -/
theorem Denotes.holds {type : Ty} {tree : Tree} (denotes : scope.Denotes type tree) :
    scope.Holds type := by
  have fields_hold {fields : List (Field Ty)} {trees : List (Field Tree)}
      (known : List.Forall₂ (Field.Rel fun type tree => ∃ _ : scope.Denotes type tree,
        scope.Holds type) fields trees) : ∀ field ∈ fields, scope.Holds field.type := by
    induction known with
    | nil => simp
    | cons head _ ih => exact List.forall_mem_cons.mpr ⟨head.2.2, ih⟩
  induction denotes using Denotes.induction with
  | prim | sort => simp
  | list _ _ _ holds | set _ _ _ holds | reified _ _ _ holds | parameter _ _ _ _ holds =>
    simpa using holds
  | map _ _ _ _ _ _ key_holds value_holds => simp [key_holds, value_holds]
  | tuple _ _ _ known => simpa using fields_hold known
  | func _ _ _ _ _ _ holds known => simpa [holds] using fields_hold known
  | dataRef _ _ known | leaf _ known | aliasRef _ _ _ _ known | constructor _ _ _ known =>
    simpa using known

/-- A scope lies within another one in which more is known. -/
structure Le (scope wider : Scope) : Prop where
  known : ∀ {reference}, scope.Known reference → wider.Known reference
  leaf : ∀ {reference}, scope.Known (.aliasRef reference) → scope.Leaf reference →
    wider.Leaf reference
  body?_eq : ∀ {reference body}, scope.Known (.aliasRef reference) →
    scope.store.body? reference = some body → wider.store.body? reference = some body

instance : LE Scope := ⟨Le⟩

theorem Le.refl (scope : Scope) : scope ≤ scope := ⟨id, fun _ => id, fun _ => id⟩

theorem Le.trans (first : scope ≤ wider) (second : wider ≤ widest) : scope ≤ widest where
  known known := second.known (first.known known)
  leaf known leaf := second.leaf (first.known known) (first.leaf known leaf)
  body?_eq known body_eq := second.body?_eq (first.known known) (first.body?_eq known body_eq)

/-- A type shows the same tree in another scope, in which more is known, if the aliases which are not
unfolded stand for declarations there as well. -/
theorem Denotes.of_leaves {other : Scope} {type : Ty} {tree : Tree}
    (denotes : scope.Denotes type tree)
    (known_le : ∀ {reference}, scope.Known reference → other.Known reference)
    (body?_eq : ∀ {reference body}, scope.Known (.aliasRef reference) →
      scope.store.body? reference = some body → other.store.body? reference = some body)
    (leaf_le : ∀ {reference}, scope.Known (.aliasRef reference) → scope.Leaf reference →
      reference.name ∈ tree.leaves → other.Leaf reference) : other.Denotes type tree := by
  have all {types : List Ty} {trees : List Tree} (known : List.Forall₂ (fun type tree =>
      ∃ _ : scope.Denotes type tree, (∀ {reference}, scope.Known (.aliasRef reference) →
        scope.Leaf reference → reference.name ∈ tree.leaves → other.Leaf reference) →
          other.Denotes type tree) types trees)
      (leaf_le : ∀ {reference}, scope.Known (.aliasRef reference) → scope.Leaf reference →
        reference.name ∈ Tree.leavesOfAll trees → other.Leaf reference) :
      other.DenoteAll types trees := by
    induction known with
    | nil => exact .nil
    | cons head _ ih =>
      exact .cons (head.2 fun known leaf mem => leaf_le known leaf (List.mem_append_left _ mem))
        (ih fun known leaf mem => leaf_le known leaf (List.mem_append_right _ mem))
  have fields {fields : List (Field Ty)} {trees : List (Field Tree)}
      (known : List.Forall₂ (Field.Rel fun type tree => ∃ _ : scope.Denotes type tree,
        (∀ {reference}, scope.Known (.aliasRef reference) → scope.Leaf reference →
          reference.name ∈ tree.leaves → other.Leaf reference) → other.Denotes type tree)
        fields trees)
      (leaf_le : ∀ {reference}, scope.Known (.aliasRef reference) → scope.Leaf reference →
        reference.name ∈ Tree.leavesOfFields trees → other.Leaf reference) :
      other.DenoteFields fields trees := by
    induction known with
    | nil => exact .nil
    | @cons field tree _ _ head _ ih =>
      obtain ⟨label, type⟩ := field
      obtain ⟨_, tree⟩ := tree
      obtain ⟨rfl, _, head⟩ := head
      exact .cons label
        (head fun known leaf mem => leaf_le known leaf (List.mem_append_left _ mem))
        (ih fun known leaf mem => leaf_le known leaf (List.mem_append_right _ mem))
  induction denotes using Denotes.induction with
  | prim => exact .prim _
  | sort => exact .sort _
  | list _ _ _ ih => exact .list (ih leaf_le)
  | set _ _ _ ih => exact .set (ih leaf_le)
  | reified _ _ _ ih => exact .reified (ih leaf_le)
  | parameter name _ _ _ ih => exact .parameter name (ih leaf_le)
  | map _ _ _ _ _ _ ih_key ih_value =>
    exact .map (ih_key fun known leaf mem => leaf_le known leaf (List.mem_append_left _ mem))
      (ih_value fun known leaf mem => leaf_le known leaf (List.mem_append_right _ mem))
  | tuple _ _ _ ih => exact .tuple (fields ih leaf_le)
  | func _ _ _ _ _ _ ih ih_arguments =>
    exact .func (ih fun known leaf mem => leaf_le known leaf (List.mem_append_left _ mem))
      (fields ih_arguments fun known leaf mem => leaf_le known leaf (List.mem_append_right _ mem))
  | dataRef _ _ known _ ih => exact .dataRef (known_le known) (all ih leaf_le)
  | leaf reference known leaf none =>
    exact .leaf (known_le known) (leaf_le known leaf (List.mem_singleton_self _)) none
  | aliasRef _ _ _ _ known some_parameter body_eq _ _ ih ih_body =>
    exact .aliasRef (known_le known) some_parameter (body?_eq known body_eq)
      (all ih fun known leaf mem => leaf_le known leaf (List.mem_append_left _ mem))
      (ih_body fun known leaf mem => leaf_le known leaf (List.mem_append_right _ mem))
  | constructor _ _ _ known _ _ ih ih_fields =>
    exact .constructor (known_le known)
      (all ih fun known leaf mem => leaf_le known leaf (List.mem_append_left _ mem))
      (fields ih_fields fun known leaf mem => leaf_le known leaf (List.mem_append_right _ mem))

/-- A type shows the same tree if more is known. -/
theorem Denotes.mono {type : Ty} {tree : Tree} (denotes : scope.Denotes type tree)
    (le : scope ≤ wider) : wider.Denotes type tree :=
  denotes.of_leaves le.known le.body?_eq fun known leaf _ => le.leaf known leaf

/-- A type shows at most one tree. -/
theorem Denotes.unique {type : Ty} {tree other : Tree} (denotes : scope.Denotes type tree)
    (denotes' : scope.Denotes type other) : tree = other := by
  have all {types : List Ty} {trees others : List Tree} (known : List.Forall₂ (fun type tree =>
      ∃ _ : scope.Denotes type tree, ∀ {other}, scope.Denotes type other → tree = other) types
      trees) (denote' : scope.DenoteAll types others) : trees = others := by
    induction known generalizing others with
    | nil =>
      cases denote'
      rfl
    | cons head _ ih =>
      cases denote' with
      | cons head' tail' => rw [head.2 head', ih tail']
  have fields {fields : List (Field Ty)} {trees others : List (Field Tree)}
      (known : List.Forall₂ (Field.Rel fun type tree => ∃ _ : scope.Denotes type tree,
        ∀ {other}, scope.Denotes type other → tree = other) fields trees)
      (denote' : scope.DenoteFields fields others) : trees = others := by
    induction known generalizing others with
    | nil =>
      cases denote'
      rfl
    | @cons field tree _ _ head _ ih =>
      obtain ⟨label, type⟩ := field
      obtain ⟨_, tree⟩ := tree
      obtain ⟨rfl, _, head⟩ := head
      cases denote' with
      | cons _ head' tail' =>
        obtain rfl := head head'
        rw [ih tail']
  induction denotes using Denotes.induction generalizing other with
  | prim | sort =>
    cases denotes'
    rfl
  | list _ _ _ ih =>
    cases denotes' with
    | list element' => rw [ih element']
  | set _ _ _ ih =>
    cases denotes' with
    | set element' => rw [ih element']
  | reified _ _ _ ih =>
    cases denotes' with
    | reified inner' => rw [ih inner']
  | parameter _ _ _ _ ih =>
    cases denotes' with
    | parameter _ bound' => rw [ih bound']
  | map _ _ _ _ _ _ ih_key ih_value =>
    cases denotes' with
    | map key' value' => rw [ih_key key', ih_value value']
  | tuple _ _ _ ih =>
    cases denotes' with
    | tuple denote' => rw [fields ih denote']
  | func _ _ _ _ _ _ ih ih_arguments =>
    cases denotes' with
    | func result' arguments' => rw [ih result', fields ih_arguments arguments']
  | dataRef _ _ _ _ ih =>
    cases denotes' with
    | dataRef _ denote' => rw [all ih denote']
  | leaf _ _ _ none =>
    cases denotes' with
    | leaf => rfl
    | aliasRef _ some_parameter => exact absurd none some_parameter
  | aliasRef _ _ _ _ _ some_parameter body_eq _ _ ih ih_body =>
    cases denotes' with
    | leaf _ _ none => exact absurd none some_parameter
    | aliasRef _ _ body_eq' denote' body' =>
      obtain rfl := Option.some.inj (body_eq.symm.trans body_eq')
      rw [all ih denote', ih_body body']
  | constructor _ _ _ _ _ _ ih ih_fields =>
    cases denotes' with
    | constructor _ denote' fields' => rw [all ih denote', fields ih_fields fields']

end Scope

/-- Whether a comparison ends and answers a question. -/
def Decides (comparison : Option Bool) (question : Prop) : Prop :=
  ∃ answer, comparison = some answer ∧ (answer = true ↔ question)

namespace Decides

theorem of_some {answer : Bool} {question : Prop} (iff : answer = true ↔ question) :
    Decides (some answer) question := ⟨answer, rfl, iff⟩

theorem congr {comparison : Option Bool} {question other : Prop}
    (decides : Decides comparison question) (iff : question ↔ other) : Decides comparison other :=
  let ⟨answer, eq, answer_iff⟩ := decides
  ⟨answer, eq, answer_iff.trans iff⟩

theorem andThenSame {first second : Option Bool} {one other : Prop} (decides : Decides first one)
    (decides' : one → Decides second other) :
    Decides (Reification.andThenSame first second) (one ∧ other) := by
  obtain ⟨_ | _, rfl, iff⟩ := decides
  · have differs : ¬one := by simpa using iff
    exact ⟨false, rfl, by simp [differs]⟩
  · have equal : one := by simpa using iff
    obtain ⟨answer, rfl, iff'⟩ := decides' equal
    exact ⟨answer, rfl, by simp [equal, iff']⟩

theorem of_not {comparison : Option Bool} {question : Prop} (eq : comparison = some false)
    (differs : ¬question) : Decides comparison question := ⟨false, eq, by simp [differs]⟩

theorem of_eq_true {comparison : Option Bool} {question : Prop} (eq : comparison = some true)
    (equal : question) : Decides comparison question := ⟨true, eq, by simp [equal]⟩

theorem eq_true_iff {comparison : Option Bool} {question : Prop}
    (decides : Decides comparison question) : comparison = some true ↔ question := by
  obtain ⟨answer, rfl, iff⟩ := decides
  simpa using iff

end Decides

namespace Scope

variable {scope : Scope}

theorem DenoteAll.length_eq {types : List Ty} {trees : List Tree}
    (denote : scope.DenoteAll types trees) : types.length = trees.length :=
  (denoteAll_iff.mp denote).length_eq

theorem DenoteFields.length_eq {fields : List (Field Ty)} {trees : List (Field Tree)}
    (denote : scope.DenoteFields fields trees) : fields.length = trees.length :=
  (denoteFields_iff.mp denote).length_eq

theorem distinct_objects {left right : AliasRef Ty} (known : scope.Known (.aliasRef left))
    (known' : scope.Known (.aliasRef right)) (distinct : left ≠ right) :
    left.object ≠ right.object := fun same =>
  distinct (Ty.aliasRef.inj (scope.unique known known' (by simpa [Ty.isSameObject] using same)))

/-- Whether the aliases of one name without parameters which stand for a declaration are equal. -/
def LeavesAgree (scope : Scope) : Prop :=
  ∀ ⦃left right⦄, scope.Known (.aliasRef left) → scope.Known (.aliasRef right) → scope.Leaf left →
    scope.Leaf right → left.parameters = [] → right.parameters = [] → left.name = right.name →
      scope.store.same (.aliasRef left) (.aliasRef right) = some true

/-- Comparing two types of a scope ends, and they are equal if they show the same tree. -/
theorem Denotes.same_decides (agree : scope.LeavesAgree) {left right : Ty} {tree other : Tree}
    (denotes : scope.Denotes left tree) (denotes' : scope.Denotes right other) :
    Decides (scope.store.same left right) (tree = other) := by
  have all {lefts rights : List Ty} {trees others : List Tree} (known : List.Forall₂ (fun left tree =>
      ∃ _ : scope.Denotes left tree, ∀ {right other}, scope.Denotes right other →
        Decides (scope.store.same left right) (tree = other)) lefts trees)
      (denote' : scope.DenoteAll rights others) :
      Decides (Ty.sameAllWith (scope.store.sameBody scope.store.same) lefts rights)
        (trees = others) := by
    induction known generalizing rights others with
    | nil =>
      cases denote' with
      | nil => exact .of_some (by simp)
      | cons => exact .of_some (by simp)
    | cons head tail ih =>
      cases denote' with
      | nil => exact .of_some (by simp)
      | cons head' tail' =>
        have head_decides := head.2 head'
        rw [Store.same_eq] at head_decides
        refine ((Decides.of_some beq_iff_eq).andThenSame fun _ =>
          head_decides.andThenSame fun _ => ih tail').congr ?_
        rw [tail.length_eq, tail'.length_eq, List.cons.injEq]
        exact ⟨fun equal => equal.2, fun equal => ⟨congrArg _ equal.2, equal⟩⟩
  have fields {lefts rights : List (Field Ty)} {trees others : List (Field Tree)}
      (known : List.Forall₂ (Field.Rel fun left tree => ∃ _ : scope.Denotes left tree,
        ∀ {right other}, scope.Denotes right other →
          Decides (scope.store.same left right) (tree = other)) lefts trees)
      (denote' : scope.DenoteFields rights others) :
      Decides (Ty.sameFieldsWith (scope.store.sameBody scope.store.same) lefts rights)
        (trees = others) := by
    induction known generalizing rights others with
    | nil =>
      cases denote' with
      | nil => exact .of_some (by simp)
      | cons => exact .of_some (by simp)
    | @cons left tree _ _ head tail ih =>
      obtain ⟨label, left⟩ := left
      obtain ⟨_, tree⟩ := tree
      obtain ⟨rfl, _, head⟩ := head
      cases denote' with
      | nil => exact .of_some (by simp)
      | cons label' head' tail' =>
        have head_decides := head head'
        rw [Store.same_eq] at head_decides
        refine ((Decides.of_some beq_iff_eq).andThenSame fun _ =>
          (Decides.of_some beq_iff_eq).andThenSame fun _ =>
            head_decides.andThenSame fun _ => ih tail').congr ?_
        rw [tail.length_eq, tail'.length_eq, List.cons.injEq, Field.mk.injEq, and_assoc]
        exact ⟨fun equal => equal.2, fun equal => ⟨congrArg _ equal.2.2, equal⟩⟩
  have data {left right : DataRef Ty} {trees others : List Tree}
      (known : scope.Known (.dataRef left)) (known' : scope.Known (.dataRef right))
      (denote : scope.DenoteAll left.parameters trees)
      (denote' : scope.DenoteAll right.parameters others)
      (decides : Decides (Ty.sameAllWith (scope.store.sameBody scope.store.same) left.parameters
        right.parameters) (trees = others)) :
      Decides ((Ty.dataRef left).sameWith (scope.store.sameBody scope.store.same) (.dataRef right))
        (left.name = right.name ∧ trees = others) := by
    by_cases same : left.object = right.object
    · obtain ⟨rfl⟩ := scope.unique known known' (by simpa [Ty.isSameObject] using same)
      obtain ⟨⟩ := (Denotes.dataRef known denote).unique (.dataRef known denote')
      exact .of_eq_true (Ty.sameWith_self _) ⟨rfl, rfl⟩
    · simp only [Ty.sameWith, if_neg same]
      exact (Decides.of_some beq_iff_eq).andThenSame fun _ => decides
  induction denotes using Denotes.induction generalizing right other with
  | prim =>
    cases denotes' <;> simp only [Store.same_eq, Ty.sameWith] <;> exact .of_some (by simp)
  | sort =>
    cases denotes' <;> simp only [Store.same_eq, Ty.sameWith] <;> exact .of_some (by simp)
  | list _ _ _ ih =>
    cases denotes' with
    | list element' => simpa [Store.same_eq, Ty.sameWith] using ih element'
    | _ => exact .of_not (by simp [Store.same_eq, Ty.sameWith]) (by simp)
  | set _ _ _ ih =>
    cases denotes' with
    | set element' => simpa [Store.same_eq, Ty.sameWith] using ih element'
    | _ => exact .of_not (by simp [Store.same_eq, Ty.sameWith]) (by simp)
  | reified _ _ _ ih =>
    cases denotes' with
    | reified inner' => simpa [Store.same_eq, Ty.sameWith] using ih inner'
    | _ => exact .of_not (by simp [Store.same_eq, Ty.sameWith]) (by simp)
  | parameter _ _ _ _ ih =>
    cases denotes' with
    | parameter _ bound' =>
      rw [Store.same_eq, Ty.sameWith, ← Store.same_eq, Tree.parameter.injEq]
      exact (Decides.of_some beq_iff_eq).andThenSame fun _ => ih bound'
    | _ => exact .of_not (by simp [Store.same_eq, Ty.sameWith]) (by simp)
  | map _ _ _ _ _ _ ih_key ih_value =>
    cases denotes' with
    | map key' value' =>
      rw [Store.same_eq, Ty.sameWith, ← Store.same_eq, ← Store.same_eq, Tree.map.injEq]
      exact (ih_key key').andThenSame fun _ => ih_value value'
    | _ => exact .of_not (by simp [Store.same_eq, Ty.sameWith]) (by simp)
  | tuple _ _ _ ih =>
    cases denotes' with
    | tuple denote' =>
      rw [Store.same_eq, Ty.sameWith, Tree.tuple.injEq]
      exact fields ih denote'
    | _ => exact .of_not (by simp [Store.same_eq, Ty.sameWith]) (by simp)
  | func _ _ _ _ _ _ ih ih_arguments =>
    cases denotes' with
    | func result' arguments' =>
      rw [Store.same_eq, Ty.sameWith, ← Store.same_eq, Tree.func.injEq]
      exact (ih result').andThenSame fun _ => fields ih_arguments arguments'
    | _ => exact .of_not (by simp [Store.same_eq, Ty.sameWith]) (by simp)
  | dataRef _ _ known denote ih =>
    cases denotes' with
    | dataRef known' denote' =>
      rw [Store.same_eq, Tree.dataRef.injEq]
      exact data known known' denote denote' (all ih denote')
    | _ => exact .of_not (by simp [Store.same_eq, Ty.sameWith]) (by simp)
  | leaf left known leaf none =>
    cases denotes' with
    | @leaf right known' leaf' none' =>
      by_cases name_eq : left.name = right.name
      · exact .of_eq_true (agree known known' leaf leaf' none none' name_eq) (by rw [name_eq])
      · refine .of_not ?_ (by simp [name_eq])
        have distinct := distinct_objects known known' fun equal => name_eq (equal ▸ rfl)
        simp [Store.same_eq, Ty.sameWith, distinct, andThenSame, name_eq]
    | @aliasRef right _ _ _ known' some_parameter' =>
      refine .of_not ?_ (by simp)
      have distinct := distinct_objects known known' fun equal => some_parameter' (equal ▸ none)
      rw [Store.same_eq, Ty.sameWith, if_neg distinct, none]
      obtain ⟨first, rest, parameters_eq⟩ := List.exists_cons_of_ne_nil some_parameter'
      rw [parameters_eq, Ty.sameAllWith]
      cases left.name == right.name <;> rfl
      all_goals simp
    | _ => exact .of_not (by simp [Store.same_eq, Ty.sameWith]) (by simp)
  | aliasRef left _ _ _ known some_parameter body_eq denote body_denotes ih ih_body =>
    cases denotes' with
    | @leaf right known' _ none' =>
      refine .of_not ?_ (by simp)
      have distinct := distinct_objects known known' fun equal => some_parameter (equal ▸ none')
      rw [Store.same_eq, Ty.sameWith, if_neg distinct, none']
      obtain ⟨first, rest, parameters_eq⟩ := List.exists_cons_of_ne_nil some_parameter
      rw [parameters_eq, Ty.sameAllWith]
      cases left.name == right.name <;> rfl
      all_goals simp
    | @aliasRef right _ _ _ known' some_parameter' body_eq' denote' body' =>
      by_cases same : left.object = right.object
      · obtain ⟨rfl⟩ := scope.unique known known' (by simpa [Ty.isSameObject] using same)
        exact .of_eq_true (Store.same_self _)
          ((Denotes.aliasRef known some_parameter body_eq denote body_denotes).unique
            (.aliasRef known' some_parameter' body_eq' denote' body'))
      · rw [Store.same_eq, Ty.sameWith, if_neg same, Tree.aliasRef.injEq, Option.some.injEq]
        refine (Decides.of_some beq_iff_eq).andThenSame fun _ =>
          (all ih denote').andThenSame fun _ => ?_
        rw [Store.sameBody, body_eq, body_eq']
        exact ih_body body'
    | _ => exact .of_not (by simp [Store.same_eq, Ty.sameWith]) (by simp)
  | constructor left trees others known denote denote_fields ih ih_fields =>
    cases denotes' with
    | @constructor right _ _ known' denote' denote_fields' =>
      by_cases same : left.object = right.object
      · obtain ⟨rfl⟩ := scope.unique known known' (by simpa [Ty.isSameObject] using same)
        exact .of_eq_true (Store.same_self _)
          ((Denotes.constructor known denote denote_fields).unique
            (.constructor known' denote' denote_fields'))
      · have owners := data (scope.known_owner known) (scope.known_owner known') denote denote'
          (all ih denote')
        rw [Ty.sameWith] at owners
        rw [Store.same_eq, Ty.sameWith, if_neg same, Tree.constructor.injEq]
        refine (owners.andThenSame fun _ => (Decides.of_some beq_iff_eq).andThenSame fun _ =>
          fields ih_fields denote_fields').congr ?_
        rw [and_assoc]
    | _ => exact .of_not (by simp [Store.same_eq, Ty.sameWith]) (by simp)

end Scope

end Reification
