import Reification.Proofs.Equality

/-!
# Heaps

A heap is a store together with the references which exist in it.  Two references in a heap which
are the same object are equal, and whatever a reference of a heap mentions lies in the heap again.
Types in a heap which are equal compare in the same way with any other.
-/

namespace Reification

/-- Whether a reference has been made in a store. -/
def Store.HasMade (store : Store) : Ty → Prop
  | .dataRef reference => reference.object < store.made
  | .aliasRef reference => reference.object < store.slots.size
  | .constructor reference => reference.object < store.made
  | _ => False

/-- A store with the references which exist in it. -/
structure Heap where
  store : Store
  /-- The references which exist. -/
  Known : Ty → Prop
  /-- References which are the same object have the same content. -/
  unique : ∀ {left right}, Known left → Known right → left.isSameObject right = true → left = right
  /-- Every reference has been made by the store. -/
  made : ∀ {reference}, Known reference → store.HasMade reference
  /-- What a reference mentions exists. -/
  closed : ∀ {reference part}, Known reference → part ∈ reference.references → Known part
  /-- What the body of an alias mentions exists. -/
  bodies : ∀ {reference body part}, Known (.aliasRef reference) →
    store.body? reference = some body → part ∈ body.references → Known part

/-- The references in the body of an alias, as far as that is known. -/
def Store.behind (store : Store) : Ty → List Ty
  | .aliasRef reference => (store.body? reference).elim [] Ty.references
  | _ => []

/-- The heap in which exactly some references exist. -/
def Heap.of (store : Store) (references : List Ty)
    (unique : ∀ left ∈ references, ∀ right ∈ references,
      left.isSameObject right = true → left = right)
    (made : ∀ reference ∈ references, store.HasMade reference)
    (closed : ∀ reference ∈ references,
      ∀ part ∈ reference.references ++ store.behind reference, part ∈ references) : Heap where
  store
  Known reference := reference ∈ references
  unique left right := unique _ left _ right
  made known := made _ known
  closed known mem := closed _ known _ (List.mem_append_left _ mem)
  bodies known body_eq mem := closed _ known _
    (List.mem_append_right _ (by simpa [Store.behind, body_eq] using mem))

namespace Heap

variable {heap : Heap}

/-- A type all of whose references exist. -/
def Holds (heap : Heap) : Ty → Prop := Ty.AllReferences heap.Known

@[simp]
theorem holds_prim (primitive : Primitive) : heap.Holds (.prim primitive) :=
  Ty.allReferences_prim primitive

@[simp]
theorem holds_sort (name : String) : heap.Holds (.sort name) := Ty.allReferences_sort name

@[simp]
theorem holds_list (element : Ty) : heap.Holds (.list element) ↔ heap.Holds element := Iff.rfl

@[simp]
theorem holds_set (element : Ty) : heap.Holds (.set element) ↔ heap.Holds element := Iff.rfl

@[simp]
theorem holds_reified (inner : Ty) : heap.Holds (.reified inner) ↔ heap.Holds inner := Iff.rfl

@[simp]
theorem holds_parameter (name : String) (bound : Ty) :
    heap.Holds (.parameter name bound) ↔ heap.Holds bound := Iff.rfl

@[simp]
theorem holds_map (key value : Ty) :
    heap.Holds (.map key value) ↔ heap.Holds key ∧ heap.Holds value :=
  Ty.allReferences_map key value

@[simp]
theorem holds_tuple (fields : List (Field Ty)) :
    heap.Holds (.tuple fields) ↔ ∀ field ∈ fields, heap.Holds field.type :=
  Ty.allReferences_tuple fields

@[simp]
theorem holds_func (result : Ty) (arguments : List (Field Ty)) :
    heap.Holds (.func result arguments) ↔
      heap.Holds result ∧ ∀ field ∈ arguments, heap.Holds field.type :=
  Ty.allReferences_func result arguments

@[simp]
theorem holds_dataRef (reference : DataRef Ty) :
    heap.Holds (.dataRef reference) ↔ heap.Known (.dataRef reference) :=
  ⟨fun holds => holds _ (List.mem_cons_self ..), fun known _ => heap.closed known⟩

@[simp]
theorem holds_aliasRef (reference : AliasRef Ty) :
    heap.Holds (.aliasRef reference) ↔ heap.Known (.aliasRef reference) :=
  ⟨fun holds => holds _ (List.mem_cons_self ..), fun known _ => heap.closed known⟩

@[simp]
theorem holds_constructor (reference : Constructor Ty) :
    heap.Holds (.constructor reference) ↔ heap.Known (.constructor reference) :=
  ⟨fun holds => holds _ (List.mem_cons_self ..), fun known _ => heap.closed known⟩

theorem holds_of_mem_parameters {reference : DataRef Ty} {type : Ty}
    (known : heap.Known (.dataRef reference)) (mem : type ∈ reference.parameters) :
    heap.Holds type := fun part part_mem =>
  heap.closed known <| by
    rw [Ty.references_dataRef, List.mem_cons, List.mem_flatMap]
    exact .inr ⟨type, mem, part_mem⟩

theorem holds_of_mem_parameters_alias {reference : AliasRef Ty} {type : Ty}
    (known : heap.Known (.aliasRef reference)) (mem : type ∈ reference.parameters) :
    heap.Holds type := fun part part_mem =>
  heap.closed known <| by
    rw [Ty.references_aliasRef, List.mem_cons, List.mem_flatMap]
    exact .inr ⟨type, mem, part_mem⟩

theorem known_owner {reference : Constructor Ty} (known : heap.Known (.constructor reference)) :
    heap.Known (.dataRef reference.owner) :=
  heap.closed known (List.mem_cons_of_mem _ (List.mem_cons_self ..))

theorem holds_of_mem_fields {reference : Constructor Ty} {field : Field Ty}
    (known : heap.Known (.constructor reference)) (mem : field ∈ reference.fields) :
    heap.Holds field.type := fun part part_mem =>
  heap.closed known <| by
    rw [Ty.references_constructor]
    simp only [List.mem_cons, List.mem_append, List.mem_flatMap]
    exact .inr (.inr (.inr ⟨field, mem, part_mem⟩))

theorem holds_body {reference : AliasRef Ty} {body : Ty} (known : heap.Known (.aliasRef reference))
    (body_eq : heap.store.body? reference = some body) : heap.Holds body := fun _ =>
  heap.bodies known body_eq

/-- Relations of elements compose to relations of lists. -/
theorem forall₂_trans {α β γ : Type} {R : α → β → Prop} {S : β → γ → Prop} {T : α → γ → Prop}
    {lefts : List α} {middles : List β} {rights : List γ}
    (trans : ∀ left ∈ lefts, ∀ middle ∈ middles, ∀ right ∈ rights,
      R left middle → S middle right → T left right)
    (first : List.Forall₂ R lefts middles) (second : List.Forall₂ S middles rights) :
    List.Forall₂ T lefts rights := by
  induction first generalizing rights with
  | nil =>
    cases second
    exact .nil
  | cons head _ ih =>
    cases second with
    | cons head' tail' =>
      exact .cons (trans _ (by simp) _ (by simp) _ (by simp) head head')
        (ih (fun left left_mem middle middle_mem right right_mem =>
          trans left (by simp [left_mem]) middle (by simp [middle_mem]) right (by simp [right_mem]))
          tail')

variable {f : AliasRef Ty → AliasRef Ty → Option Bool} {answer : Bool}

/-- A reference compares as an equal one does if it does so whenever no two of the references which
are compared are the same object. -/
theorem sameWith_congr_of_distinct (comm : ∀ left right, f left right = f right left)
    {left middle right : Ty} (left_known : heap.Known left) (middle_known : heap.Known middle)
    (right_known : heap.Known right) (first : left.sameWith f middle = some true)
    (second : middle.sameWith f right = some answer)
    (distinct : left.isSameObject middle = false → middle.isSameObject right = false →
      left.isSameObject right = false → left.sameWith f right = some answer) :
    left.sameWith f right = some answer := by
  rcases left_middle : left.isSameObject middle with _ | _
  · rcases middle_right : middle.isSameObject right with _ | _
    · rcases left_right : left.isSameObject right with _ | _
      · exact distinct left_middle middle_right left_right
      · obtain rfl := heap.unique left_known right_known left_right
        rw [Ty.sameWith_comm comm, first] at second
        rw [Ty.sameWith_self, second]
    · obtain rfl := heap.unique middle_known right_known middle_right
      rw [Ty.sameWith_self] at second
      rw [first, second]
  · rwa [heap.unique left_known middle_known left_middle]

/-- Lists compare as equal ones do if their elements do. -/
theorem sameAllWith_congr {lefts middles rights : List Ty}
    (congr : ∀ left ∈ lefts, ∀ middle ∈ middles, ∀ right ∈ rights, ∀ answer,
      left.sameWith f middle = some true → middle.sameWith f right = some answer →
        left.sameWith f right = some answer)
    (first : List.Forall₂ (fun left right => left.sameWith f right = some true) lefts middles)
    (second : Ty.sameAllWith f middles rights = some answer) :
    Ty.sameAllWith f lefts rights = some answer := by
  induction first generalizing rights answer with
  | nil => exact second
  | cons head tail ih =>
    cases rights with
    | nil => exact second
    | cons right rights =>
      rw [Ty.sameAllWith, ← tail.length_eq] at second
      refine andThenSame_eq_some second (fun _ => id) fun _ second => ?_
      refine andThenSame_eq_some second (fun _ => congr _ (List.mem_cons_self ..) _
        (List.mem_cons_self ..) _ (List.mem_cons_self ..) _ head) fun _ => ih ?_
      exact fun left left_mem middle middle_mem right right_mem =>
        congr left (List.mem_cons_of_mem _ left_mem) middle (List.mem_cons_of_mem _ middle_mem)
          right (List.mem_cons_of_mem _ right_mem)

theorem sameFieldsWith_congr {lefts middles rights : List (Field Ty)}
    (congr : ∀ left ∈ lefts, ∀ middle ∈ middles, ∀ right ∈ rights, ∀ answer,
      left.type.sameWith f middle.type = some true →
        middle.type.sameWith f right.type = some answer →
          left.type.sameWith f right.type = some answer)
    (first : List.Forall₂ (fun left right => left.label = right.label ∧
      left.type.sameWith f right.type = some true) lefts middles)
    (second : Ty.sameFieldsWith f middles rights = some answer) :
    Ty.sameFieldsWith f lefts rights = some answer := by
  induction first generalizing rights answer with
  | nil => exact second
  | cons head tail ih =>
    cases rights with
    | nil => exact second
    | cons right rights =>
      rw [Ty.sameFieldsWith, ← tail.length_eq, ← head.1] at second
      refine andThenSame_eq_some second (fun _ => id) fun _ second => ?_
      refine andThenSame_eq_some second (fun _ => id) fun _ second => ?_
      refine andThenSame_eq_some second (fun _ => congr _ (List.mem_cons_self ..) _
        (List.mem_cons_self ..) _ (List.mem_cons_self ..) _ head.2) fun _ => ih ?_
      exact fun left left_mem middle middle_mem right right_mem =>
        congr left (List.mem_cons_of_mem _ left_mem) middle (List.mem_cons_of_mem _ middle_mem)
          right (List.mem_cons_of_mem _ right_mem)

/-- A type in a heap compares as an equal one does if the bodies of aliases do. -/
theorem sameWith_congr (comm : ∀ left right, f left right = f right left)
    (congr : ∀ {left middle right}, heap.Known (.aliasRef left) → heap.Known (.aliasRef middle) →
      heap.Known (.aliasRef right) → ∀ {answer}, f left middle = some true →
        f middle right = some answer → f left right = some answer)
    {left middle right : Ty} (left_holds : heap.Holds left) (middle_holds : heap.Holds middle)
    (right_holds : heap.Holds right) (first : left.sameWith f middle = some true)
    (second : middle.sameWith f right = some answer) : left.sameWith f right = some answer := by
  have fields_congr {lefts middles rights : List (Field Ty)} {answer : Bool}
      (ih : ∀ left ∈ lefts, ∀ {answer : Bool} {middle right : Ty}, heap.Holds left.type →
        heap.Holds middle → heap.Holds right → left.type.sameWith f middle = some true →
        middle.sameWith f right = some answer → left.type.sameWith f right = some answer)
      (lefts_hold : ∀ field ∈ lefts, heap.Holds field.type)
      (middles_hold : ∀ field ∈ middles, heap.Holds field.type)
      (rights_hold : ∀ field ∈ rights, heap.Holds field.type) :
      List.Forall₂ (fun left right => left.label = right.label ∧
        left.type.sameWith f right.type = some true) lefts middles →
      Ty.sameFieldsWith f middles rights = some answer →
        Ty.sameFieldsWith f lefts rights = some answer :=
    sameFieldsWith_congr fun left left_mem middle middle_mem right right_mem _ =>
      ih left left_mem (lefts_hold left left_mem) (middles_hold middle middle_mem)
        (rights_hold right right_mem)
  have data_congr {left middle right : DataRef Ty} {answer : Bool}
      (ih : ∀ type ∈ left.parameters, ∀ {answer : Bool} {middle right : Ty}, heap.Holds type →
        heap.Holds middle → heap.Holds right → type.sameWith f middle = some true →
        middle.sameWith f right = some answer → type.sameWith f right = some answer)
      (left_known : heap.Known (.dataRef left)) (middle_known : heap.Known (.dataRef middle))
      (right_known : heap.Known (.dataRef right))
      (first : (Ty.dataRef left).sameWith f (.dataRef middle) = some true)
      (second : (Ty.dataRef middle).sameWith f (.dataRef right) = some answer) :
      (Ty.dataRef left).sameWith f (.dataRef right) = some answer := by
    refine sameWith_congr_of_distinct comm left_known middle_known right_known first second
      fun left_middle middle_right left_right => ?_
    simp only [Ty.isSameObject, beq_eq_false_iff_ne] at left_middle middle_right left_right
    obtain ⟨_, ⟨⟩, one⟩ := Ty.dataRef_sameWith_iff.mp first
    obtain ⟨name_eq, parameters⟩ := one.resolve_left left_middle
    rw [Ty.sameWith, if_neg middle_right] at second
    rw [Ty.sameWith, if_neg left_right, name_eq]
    exact andThenSame_eq_some second (fun _ => id) fun _ => sameAllWith_congr
      (fun left left_mem middle middle_mem right right_mem _ => ih left left_mem
        (holds_of_mem_parameters left_known left_mem)
        (holds_of_mem_parameters middle_known middle_mem)
        (holds_of_mem_parameters right_known right_mem)) parameters
  induction left using Ty.induction generalizing middle right answer with
  | prim =>
    obtain rfl := Ty.prim_sameWith_iff.mp first
    exact second
  | sort =>
    obtain rfl := Ty.sort_sameWith_iff.mp first
    exact second
  | list _ ih =>
    obtain ⟨_, rfl, one⟩ := Ty.list_sameWith_iff.mp first
    cases right <;> try exact second
    simp only [holds_list] at left_holds middle_holds right_holds
    exact ih left_holds middle_holds right_holds one second
  | set _ ih =>
    obtain ⟨_, rfl, one⟩ := Ty.set_sameWith_iff.mp first
    cases right <;> try exact second
    simp only [holds_set] at left_holds middle_holds right_holds
    exact ih left_holds middle_holds right_holds one second
  | reified _ ih =>
    obtain ⟨_, rfl, one⟩ := Ty.reified_sameWith_iff.mp first
    cases right <;> try exact second
    simp only [holds_reified] at left_holds middle_holds right_holds
    exact ih left_holds middle_holds right_holds one second
  | map _ _ ih_key ih_value =>
    obtain ⟨_, _, rfl, one_key, one_value⟩ := Ty.map_sameWith_iff.mp first
    cases right <;> try exact second
    simp only [holds_map] at left_holds middle_holds right_holds
    exact andThenSame_eq_some second
      (fun _ => ih_key left_holds.1 middle_holds.1 right_holds.1 one_key)
      fun _ => ih_value left_holds.2 middle_holds.2 right_holds.2 one_value
  | tuple _ ih =>
    obtain ⟨_, rfl, one⟩ := Ty.tuple_sameWith_iff.mp first
    cases right <;> try exact second
    simp only [holds_tuple] at left_holds middle_holds right_holds
    exact fields_congr ih left_holds middle_holds right_holds one second
  | func _ _ ih ih_arguments =>
    obtain ⟨_, _, rfl, one, one_arguments⟩ := Ty.func_sameWith_iff.mp first
    cases right <;> try exact second
    simp only [holds_func] at left_holds middle_holds right_holds
    exact andThenSame_eq_some second
      (fun _ => ih left_holds.1 middle_holds.1 right_holds.1 one)
      fun _ => fields_congr ih_arguments left_holds.2 middle_holds.2 right_holds.2 one_arguments
  | parameter _ _ ih =>
    obtain ⟨_, rfl, one⟩ := Ty.parameter_sameWith_iff.mp first
    cases right <;> try exact second
    exact andThenSame_eq_some second (fun _ => id)
      fun _ => ih left_holds middle_holds right_holds one
  | dataRef _ _ _ ih =>
    obtain ⟨_, rfl, -⟩ := Ty.dataRef_sameWith_iff.mp first
    cases right <;> try exact second
    rw [holds_dataRef] at left_holds middle_holds right_holds
    exact data_congr ih left_holds middle_holds right_holds first second
  | aliasRef _ _ _ ih =>
    obtain ⟨_, rfl, one⟩ := Ty.aliasRef_sameWith_iff.mp first
    cases right <;> try exact second
    rw [holds_aliasRef] at left_holds middle_holds right_holds
    refine sameWith_congr_of_distinct comm left_holds middle_holds right_holds first second
      fun left_middle middle_right left_right => ?_
    simp only [Ty.isSameObject, beq_eq_false_iff_ne] at left_middle middle_right left_right
    obtain ⟨name_eq, parameters, bodies⟩ := one.resolve_left left_middle
    rw [Ty.sameWith, if_neg middle_right] at second
    rw [Ty.sameWith, if_neg left_right]
    simp only at name_eq
    refine andThenSame_eq_some second (fun _ => name_eq ▸ id) fun _ second =>
      andThenSame_eq_some second (fun _ => sameAllWith_congr
        (fun left left_mem middle middle_mem right right_mem _ => ih left left_mem
          (holds_of_mem_parameters_alias left_holds left_mem)
          (holds_of_mem_parameters_alias middle_holds middle_mem)
          (holds_of_mem_parameters_alias right_holds right_mem)) parameters)
        fun _ => congr left_holds middle_holds right_holds bodies
  | constructor _ _ _ _ _ _ _ ih ih_fields =>
    obtain ⟨_, rfl, one⟩ := Ty.constructor_sameWith_iff.mp first
    cases right <;> try exact second
    rw [holds_constructor] at left_holds middle_holds right_holds
    refine sameWith_congr_of_distinct comm left_holds middle_holds right_holds first second
      fun left_middle middle_right left_right => ?_
    simp only [Ty.isSameObject, beq_eq_false_iff_ne] at left_middle middle_right left_right
    obtain ⟨owners, name_eq, fields⟩ := one.resolve_left left_middle
    rw [Ty.sameWith, if_neg middle_right] at second
    rw [Ty.sameWith, if_neg left_right]
    simp only at name_eq
    refine andThenSame_eq_some second (fun _ => data_congr ih (known_owner left_holds)
      (known_owner middle_holds) (known_owner right_holds) owners) fun _ second =>
        andThenSame_eq_some second (fun _ => name_eq ▸ id) fun _ => fields_congr ih_fields
          (fun _ => holds_of_mem_fields left_holds) (fun _ => holds_of_mem_fields middle_holds)
          (fun _ => holds_of_mem_fields right_holds) fields

/-- A type in a heap compares as an equal one does. -/
theorem same_congr {left middle right : Ty} (left_holds : heap.Holds left)
    (middle_holds : heap.Holds middle) (right_holds : heap.Holds right)
    (first : heap.store.same left middle = some true)
    (second : heap.store.same middle right = some answer) :
    heap.store.same left right = some answer := by
  have within_congr (depth : Nat) : ∀ {left middle right : Ty} {answer}, heap.Holds left →
      heap.Holds middle → heap.Holds right → heap.store.sameWithin depth left middle = some true →
      heap.store.sameWithin depth middle right = some answer →
      heap.store.sameWithin depth left right = some answer := by
    induction depth with
    | zero => exact sameWith_congr (fun _ _ => rfl) fun _ _ _ _ found => absurd found (by simp)
    | succ depth ih =>
      refine sameWith_congr (fun left right => ?_)
        fun {left middle right} left_known middle_known right_known answer one other => ?_
      · exact Store.sameBody_comm (Store.sameWithin_comm depth) left right
      simp only [Store.sameBody] at one other ⊢
      cases left_eq : heap.store.body? left <;> cases middle_eq : heap.store.body? middle <;>
        cases right_eq : heap.store.body? right <;>
        simp only [left_eq, middle_eq, right_eq] at one other ⊢ <;>
        try first | contradiction | exact other
      exact ih (holds_body left_known left_eq) (holds_body middle_known middle_eq)
        (holds_body right_known right_eq) one other
  exact within_congr _ left_holds middle_holds right_holds first second

/-- Equality of types in a heap is transitive. -/
theorem same_trans {left middle right : Ty} (left_holds : heap.Holds left)
    (middle_holds : heap.Holds middle) (right_holds : heap.Holds right)
    (first : heap.store.same left middle = some true)
    (second : heap.store.same middle right = some true) :
    heap.store.same left right = some true :=
  same_congr left_holds middle_holds right_holds first second

end Heap

end Reification
