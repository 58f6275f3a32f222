import Reification.Proofs.Likeness
import Reification.Proofs.Parts

/-!
# Outlines and parts

The parts of a type in a store are the types of which it consists directly and, if it is an alias,
its body.  What is left of it without them is its outline.  Two types of a heap are equal if they have
the same outline and equal parts.
-/

namespace Reification

namespace Ty

/-- A type whose parts are left blank, like the numbers of objects. -/
def outline : Ty → Ty
  | prim primitive => prim primitive
  | list _ => list (sort "")
  | set _ => set (sort "")
  | map _ _ => map (sort "") (sort "")
  | tuple fields => tuple (fields.map (Field.map fun _ => sort ""))
  | func _ arguments => func (sort "") (arguments.map (Field.map fun _ => sort ""))
  | reified _ => reified (sort "")
  | parameter name _ => parameter name (sort "")
  | dataRef reference => dataRef ⟨0, reference.name, reference.parameters.map fun _ => sort ""⟩
  | aliasRef reference => aliasRef ⟨0, reference.name, reference.parameters.map fun _ => sort ""⟩
  | constructor reference =>
    constructor ⟨0, ⟨0, reference.owner.name, reference.owner.parameters.map fun _ => sort ""⟩,
      reference.name, reference.fields.map (Field.map fun _ => sort ""), ∅⟩
  | sort name => sort name

/-- A claim about all types follows from the claim for those of which the direct parts satisfy it. -/
@[elab_as_elim]
theorem children_induction {P : Ty → Prop}
    (step : ∀ type, (∀ child ∈ type.children, P child) → P type) (type : Ty) : P type := by
  induction type using Ty.induction with
  | prim | sort => exact step _ nofun
  | list _ ih | set _ ih | reified _ ih | parameter _ _ ih =>
    exact step _ (List.forall_mem_singleton.mpr ih)
  | map _ _ ih_key ih_value => exact step _ (by simpa [children] using ⟨ih_key, ih_value⟩)
  | tuple _ ih => exact step _ (List.forall_mem_map.mpr ih)
  | func _ _ ih ih_arguments =>
    exact step _ (List.forall_mem_cons.mpr ⟨ih, List.forall_mem_map.mpr ih_arguments⟩)
  | dataRef _ _ _ ih | aliasRef _ _ _ ih => exact step _ ih
  | constructor _ _ _ _ _ _ _ ih ih_fields =>
    exact step _ (List.forall_mem_append.mpr ⟨ih, List.forall_mem_map.mpr ih_fields⟩)

variable {P : Ty → Prop}

theorem AllReferences.children {type : Ty} (all : type.AllReferences P) :
    ∀ child ∈ type.children, child.AllReferences P := by
  cases type with
  | prim | sort => exact nofun
  | list | set | reified | parameter => exact List.forall_mem_singleton.mpr all
  | map => simpa [Ty.children] using all
  | tuple => exact List.forall_mem_map.mpr ((allReferences_tuple _).mp all)
  | func =>
    obtain ⟨result_all, arguments_all⟩ := (allReferences_func _ _).mp all
    exact List.forall_mem_cons.mpr ⟨result_all, List.forall_mem_map.mpr arguments_all⟩
  | dataRef => exact ((allReferences_dataRef _).mp all).2
  | aliasRef => exact ((allReferences_aliasRef _).mp all).2
  | constructor =>
    obtain ⟨-, owner_all, fields_all⟩ := (allReferences_constructor _).mp all
    exact List.forall_mem_append.mpr
      ⟨((allReferences_dataRef _).mp owner_all).2, List.forall_mem_map.mpr fields_all⟩

end Ty

/-- Fields are related if their labels are the same and their types are related. -/
theorem forall₂_fieldRel_iff {α β : Type} {R : α → β → Prop} {fields : List (Field α)}
    {others : List (Field β)} : List.Forall₂ (Field.Rel R) fields others ↔
      fields.map (·.label) = others.map (·.label) ∧
        List.Forall₂ R (fields.map (·.type)) (others.map (·.type)) := by
  induction fields generalizing others with
  | nil => cases others <;> simp
  | cons field fields ih =>
    cases others with
    | nil => simp
    | cons other others =>
      simp only [List.forall₂_cons, List.map_cons, List.cons.injEq, ih, Field.Rel]
      exact and_and_and_comm

/-- What a type consists of directly, where an alias consists of its body as well. -/
def Store.parts (store : Store) : Ty → List Ty
  | .aliasRef reference => (store.body? reference).toList ++ reference.parameters
  | type => type.children

namespace Heap

variable {heap wider : Heap} {left right type part : Ty}

theorem holds_of_mem_children (holds : heap.Holds type) (mem : part ∈ type.children) :
    heap.Holds part := Ty.AllReferences.children holds part mem

theorem holds_of_mem_parts (holds : heap.Holds type) (mem : part ∈ heap.store.parts type) :
    heap.Holds part := by
  cases type with
  | aliasRef reference =>
    rcases List.mem_append.mp mem with mem | mem
    · exact holds_body ((holds_aliasRef _).mp holds) (Option.mem_toList.mp mem)
    · exact holds_of_mem_children holds mem
  | _ => exact holds_of_mem_children holds mem

/-- Making references leaves the parts of a type alone. -/
theorem GrowsTo.parts_eq (growsTo : heap.GrowsTo wider) (holds : heap.Holds type) :
    wider.store.parts type = heap.store.parts type := by
  cases type with
  | aliasRef reference =>
    rw [Store.parts, growsTo.body?_eq ((holds_aliasRef _).mp holds)]
    rfl
  | _ => rfl

theorem alikeFields_of_parts {fields others : List (Field Ty)}
    (outline_eq : fields.map (Field.map fun _ => Ty.sort "") =
      others.map (Field.map fun _ => Ty.sort ""))
    (parts : List.Forall₂ heap.Alike (fields.map (·.type)) (others.map (·.type))) :
    heap.AlikeFields fields others := by
  have labels_eq := congrArg (List.map (·.label)) outline_eq
  rw [List.map_map, List.map_map] at labels_eq
  exact forall₂_fieldRel_iff.mpr ⟨labels_eq, parts⟩

theorem length_eq_of_map_blank {α : Type} {types others : List α}
    (outline_eq : (types.map fun _ => Ty.sort "") = others.map fun _ => Ty.sort "") :
    types.length = others.length := by
  simpa only [List.length_map] using congrArg List.length outline_eq

/-- Lists are related piece by piece if their first pieces have the same length. -/
theorem forall₂_append_of_length_eq {α β : Type} {R : α → β → Prop} {lefts lefts' : List α}
    {rights rights' : List β} (length_eq : lefts.length = rights.length)
    (related : List.Forall₂ R (lefts ++ lefts') (rights ++ rights')) :
    List.Forall₂ R lefts rights ∧ List.Forall₂ R lefts' rights' := by
  have first := List.forall₂_take_append _ _ _ related
  have second := List.forall₂_drop_append _ _ _ related
  rw [← length_eq, List.take_left] at first
  rw [← length_eq, List.drop_left] at second
  exact ⟨first, second⟩

/-- Lists of the same length are related if they are so behind one more element, as far as it is
there. -/
theorem forall₂_toList_append {α β : Type} {R : α → β → Prop} {one : Option α} {other : Option β}
    {lefts : List α} {rights : List β} (length_eq : lefts.length = rights.length)
    (related : List.Forall₂ R (one.toList ++ lefts) (other.toList ++ rights)) :
    Option.Rel R one other ∧ List.Forall₂ R lefts rights := by
  have lengths := related.length_eq
  cases one <;> cases other <;> simp [length_eq] at lengths
  · exact ⟨.none, related⟩
  · obtain ⟨first, rest⟩ := List.forall₂_cons.mp related
    exact ⟨.some first, rest⟩

theorem forall₂_toList {α β : Type} {R : α → β → Prop} {one : Option α} {other : Option β}
    (related : Option.Rel R one other) : List.Forall₂ R one.toList other.toList := by
  cases related with
  | none => exact .nil
  | some related => exact .cons related .nil

theorem forall_mem_of_forall₂ {α β : Type} {R : α → β → Prop} {P : β → Prop} {lefts : List α}
    {rights : List β} (related : List.Forall₂ R lefts rights)
    (imp : ∀ {left right}, R left right → P right) : ∀ right ∈ rights, P right := by
  induction related with
  | nil => exact nofun
  | cons head _ ih => exact List.forall_mem_cons.mpr ⟨imp head, ih⟩

/-- Types with the same outline and equal parts are equal. -/
theorem alike_of_parts (left_holds : heap.Holds left) (right_holds : heap.Holds right)
    (outline_eq : left.outline = right.outline)
    (parts : List.Forall₂ heap.Alike (heap.store.parts left) (heap.store.parts right)) :
    heap.Alike left right := by
  cases left with
  | prim =>
    cases right with
    | prim =>
      cases outline_eq
      exact .refl left_holds
    | _ => cases outline_eq
  | sort =>
    cases right with
    | sort =>
      cases outline_eq
      exact .refl left_holds
    | _ => cases outline_eq
  | list =>
    cases right with
    | list => exact alike_list_iff.mpr ⟨_, rfl, (List.forall₂_cons.mp parts).1⟩
    | _ => cases outline_eq
  | set =>
    cases right with
    | set => exact alike_set_iff.mpr ⟨_, rfl, (List.forall₂_cons.mp parts).1⟩
    | _ => cases outline_eq
  | reified =>
    cases right with
    | reified => exact alike_reified_iff.mpr ⟨_, rfl, (List.forall₂_cons.mp parts).1⟩
    | _ => cases outline_eq
  | parameter =>
    cases right with
    | parameter =>
      obtain ⟨rfl, -⟩ := Ty.parameter.inj outline_eq
      exact alike_parameter_iff.mpr ⟨_, rfl, (List.forall₂_cons.mp parts).1⟩
    | _ => cases outline_eq
  | map =>
    cases right with
    | map =>
      obtain ⟨keys, values⟩ := List.forall₂_cons.mp parts
      exact alike_map_iff.mpr ⟨_, _, rfl, keys, (List.forall₂_cons.mp values).1⟩
    | _ => cases outline_eq
  | tuple =>
    cases right with
    | tuple =>
      exact alike_tuple_iff.mpr ⟨_, rfl, alikeFields_of_parts (Ty.tuple.inj outline_eq) parts⟩
    | _ => cases outline_eq
  | func =>
    cases right with
    | func =>
      obtain ⟨results, arguments⟩ := List.forall₂_cons.mp parts
      exact alike_func_iff.mpr
        ⟨_, _, rfl, results, alikeFields_of_parts (Ty.func.inj outline_eq).2 arguments⟩
    | _ => cases outline_eq
  | dataRef =>
    cases right with
    | dataRef =>
      obtain ⟨-, name_eq, -⟩ := DataRef.mk.inj (Ty.dataRef.inj outline_eq)
      exact .dataRef ((holds_dataRef _).mp left_holds) ((holds_dataRef _).mp right_holds) name_eq
        parts
    | _ => cases outline_eq
  | aliasRef =>
    cases right with
    | aliasRef =>
      obtain ⟨-, name_eq, parameters_eq⟩ := AliasRef.mk.inj (Ty.aliasRef.inj outline_eq)
      obtain ⟨bodies, parameters⟩ :=
        forall₂_toList_append (length_eq_of_map_blank parameters_eq) parts
      exact .aliasRef ((holds_aliasRef _).mp left_holds) ((holds_aliasRef _).mp right_holds) name_eq
        parameters bodies
    | _ => cases outline_eq
  | constructor =>
    cases right with
    | constructor =>
      have left_known := (holds_constructor _).mp left_holds
      have right_known := (holds_constructor _).mp right_holds
      obtain ⟨-, owner_eq, name_eq, fields_eq, -⟩ :=
        Constructor.mk.inj (Ty.constructor.inj outline_eq)
      obtain ⟨-, owner_name_eq, parameters_eq⟩ := DataRef.mk.inj owner_eq
      obtain ⟨parameters, fields⟩ :=
        forall₂_append_of_length_eq (length_eq_of_map_blank parameters_eq) parts
      exact .constructor left_known right_known name_eq
        (.dataRef (known_owner left_known) (known_owner right_known) owner_name_eq parameters)
        (alikeFields_of_parts fields_eq fields)
    | _ => cases outline_eq

end Heap

end Reification
