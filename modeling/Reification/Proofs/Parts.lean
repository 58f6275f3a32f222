import Mathlib.Logic.Relation
import Reification.Proofs.Equality

/-!
# The parts of types and symbols

What holds of all parts of a type is shown for the type itself and for its direct parts.  The owner
of a constructor is part of the constructor, but its parameters are parts of the type.

Two types are compared without looking at the body of any alias if their aliases of the same name are
the same object.
-/

namespace Reification

namespace Ty

/-- The types of which a type consists directly. -/
def children : Ty → List Ty
  | prim _ | sort _ => []
  | list element | set element => [element]
  | map key value => [key, value]
  | tuple fields => fields.map (·.type)
  | func result arguments => result :: arguments.map (·.type)
  | reified inner => [inner]
  | parameter _ bound => [bound]
  | dataRef reference => reference.parameters
  | aliasRef reference => reference.parameters
  | constructor reference => reference.owner.parameters ++ reference.fields.map (·.type)

/-- Whether something holds of a type and of all its parts. -/
def All (P : Ty → Prop) (type : Ty) : Prop :=
  ∀ part, Relation.ReflTransGen (fun whole child => child ∈ whole.children) type part → P part

variable {P Q : Ty → Prop} {type : Ty}

theorem all_iff : type.All P ↔ P type ∧ ∀ child ∈ type.children, child.All P := by
  refine ⟨fun all => ⟨all type .refl, fun child mem part path => all part (.head mem path)⟩, ?_⟩
  rintro ⟨holds, all⟩ part path
  rcases Relation.ReflTransGen.cases_head path with rfl | ⟨child, mem, rest⟩
  · exact holds
  · exact all child mem part rest

theorem All.imp (all : type.All P) (imp : ∀ part, P part → Q part) : type.All Q :=
  fun part path => imp part (all part path)

theorem All.self (all : type.All P) : P type := all type .refl

/-- What holds of all parts of a type holds of its aliases. -/
theorem All.allAliases {R : AliasRef Ty → Prop} (all : type.All P)
    (imp : ∀ reference, P (aliasRef reference) → R reference) : type.AllAliases R := by
  induction type using Ty.induction with
  | prim | sort => simp
  | list _ ih | set _ ih | reified _ ih | parameter _ _ ih =>
    exact ih ((all_iff.mp all).2 _ (List.mem_singleton_self _))
  | map _ _ ih_key ih_value =>
    have children := (all_iff.mp all).2
    exact (allAliases_map _ _).mpr ⟨ih_key (children _ (by simp [Ty.children])),
      ih_value (children _ (by simp [Ty.children]))⟩
  | tuple _ ih =>
    exact (allAliases_tuple _).mpr fun field mem =>
      ih field mem ((all_iff.mp all).2 _ (List.mem_map_of_mem mem))
  | func _ _ ih ih_arguments =>
    have children := (all_iff.mp all).2
    exact (allAliases_func _ _).mpr ⟨ih (children _ (List.mem_cons_self ..)), fun field mem =>
      ih_arguments field mem (children _ (List.mem_cons_of_mem _ (List.mem_map_of_mem mem)))⟩
  | dataRef _ _ _ ih =>
    exact (allAliases_dataRef _).mpr fun part mem => ih part mem ((all_iff.mp all).2 part mem)
  | aliasRef _ _ _ ih =>
    exact (allAliases_aliasRef _).mpr ⟨imp _ all.self, fun part mem =>
      ih part mem ((all_iff.mp all).2 part mem)⟩
  | constructor _ _ _ _ _ _ _ ih ih_fields =>
    have children := (all_iff.mp all).2
    exact (allAliases_constructor _).mpr ⟨fun part mem =>
      ih part mem (children part (List.mem_append_left _ mem)), fun field mem =>
        ih_fields field mem (children _ (List.mem_append_right _ (List.mem_map_of_mem mem)))⟩

section Comparing

variable {f : AliasRef Ty → AliasRef Ty → Option Bool} {R : AliasRef Ty → Prop}

theorem andThenSame_ne_none {first second : Option Bool} (first_ends : first ≠ none)
    (second_ends : second ≠ none) : andThenSame first second ≠ none := by
  rcases first with _ | _ | _
  · exact absurd rfl first_ends
  · simp [andThenSame]
  · exact second_ends

theorem sameAllWith_ne_none {lefts rights : List Ty}
    (ends : ∀ left ∈ lefts, ∀ right ∈ rights, left.sameWith f right ≠ none) :
    sameAllWith f lefts rights ≠ none := by
  induction lefts generalizing rights with
  | nil => cases rights <;> simp [sameAllWith]
  | cons left lefts ih =>
    cases rights with
    | nil => simp [sameAllWith]
    | cons right rights =>
      refine andThenSame_ne_none (by simp) (andThenSame_ne_none (ends _ (by simp) _ (by simp)) ?_)
      exact ih fun left left_mem right right_mem => ends left (List.mem_cons_of_mem _ left_mem) right
        (List.mem_cons_of_mem _ right_mem)

theorem sameFieldsWith_ne_none {lefts rights : List (Field Ty)}
    (ends : ∀ left ∈ lefts, ∀ right ∈ rights, left.type.sameWith f right.type ≠ none) :
    sameFieldsWith f lefts rights ≠ none := by
  induction lefts generalizing rights with
  | nil => cases rights <;> simp [sameFieldsWith]
  | cons left lefts ih =>
    cases rights with
    | nil => simp [sameFieldsWith]
    | cons right rights =>
      refine andThenSame_ne_none (by simp) (andThenSame_ne_none (by simp)
        (andThenSame_ne_none (ends _ (by simp) _ (by simp)) ?_))
      exact ih fun left left_mem right right_mem => ends left (List.mem_cons_of_mem _ left_mem) right
        (List.mem_cons_of_mem _ right_mem)

/-- Comparing two types ends if their aliases are determined by their names. -/
theorem sameWith_ne_none
    (unique : ∀ left right, R left → R right → left.name = right.name → left = right)
    {left right : Ty} (left_all : left.AllAliases R) (right_all : right.AllAliases R) :
    left.sameWith f right ≠ none := by
  induction left using Ty.induction generalizing right with
  | prim => cases right <;> simp [sameWith]
  | sort => cases right <;> simp [sameWith]
  | list _ ih =>
    cases right with
    | list => exact ih left_all right_all
    | _ => simp [sameWith]
  | set _ ih =>
    cases right with
    | set => exact ih left_all right_all
    | _ => simp [sameWith]
  | reified _ ih =>
    cases right with
    | reified => exact ih left_all right_all
    | _ => simp [sameWith]
  | parameter _ _ ih =>
    cases right with
    | parameter => exact andThenSame_ne_none (by simp) (ih left_all right_all)
    | _ => simp [sameWith]
  | map _ _ ih_key ih_value =>
    cases right with
    | map =>
      rw [allAliases_map] at left_all right_all
      exact andThenSame_ne_none (ih_key left_all.1 right_all.1) (ih_value left_all.2 right_all.2)
    | _ => simp [sameWith]
  | tuple _ ih =>
    cases right with
    | tuple =>
      rw [allAliases_tuple] at left_all right_all
      exact sameFieldsWith_ne_none fun field mem other other_mem =>
        ih field mem (left_all field mem) (right_all other other_mem)
    | _ => simp [sameWith]
  | func _ _ ih ih_arguments =>
    cases right with
    | func =>
      rw [allAliases_func] at left_all right_all
      exact andThenSame_ne_none (ih left_all.1 right_all.1)
        (sameFieldsWith_ne_none fun field mem other other_mem =>
          ih_arguments field mem (left_all.2 field mem) (right_all.2 other other_mem))
    | _ => simp [sameWith]
  | dataRef _ _ _ ih =>
    cases right with
    | dataRef =>
      rw [allAliases_dataRef] at left_all right_all
      rw [sameWith]
      split
      · simp
      · exact andThenSame_ne_none (by simp) (sameAllWith_ne_none fun part mem other other_mem =>
          ih part mem (left_all part mem) (right_all other other_mem))
    | _ => simp [sameWith]
  | aliasRef object name parameters ih =>
    cases right with
    | aliasRef reference =>
      rw [allAliases_aliasRef] at left_all right_all
      rw [sameWith]
      split
      · simp
      · next differ =>
        by_cases name_eq : name = reference.name
        · exact absurd (congrArg AliasRef.object (unique _ _ left_all.1 right_all.1 name_eq)) differ
        · simp [andThenSame, name_eq]
    | _ => simp [sameWith]
  | constructor _ _ _ _ _ _ _ ih ih_fields =>
    cases right with
    | constructor =>
      rw [allAliases_constructor] at left_all right_all
      rw [sameWith]
      split
      · simp
      · refine andThenSame_ne_none ?_ (andThenSame_ne_none (by simp)
          (sameFieldsWith_ne_none fun field mem other other_mem =>
            ih_fields field mem (left_all.2 field mem) (right_all.2 other other_mem)))
        split
        · simp
        · exact andThenSame_ne_none (by simp) (sameAllWith_ne_none fun part mem other other_mem =>
            ih part mem (left_all.1 part mem) (right_all.1 other other_mem))
    | _ => simp [sameWith]

end Comparing

end Ty

namespace Symbol

/-- The symbols of which a symbol consists directly. -/
def children : Symbol → List Symbol
  | prim _ | sort _ => []
  | label _ inner | list inner | set inner | reified inner | parameter _ inner => [inner]
  | map key value => [key, value]
  | tuple fields => fields
  | func result arguments => result :: arguments
  | dataRef _ parameters | aliasRef _ parameters => parameters
  | constructor owner _ fields => owner :: fields

/-- Whether a symbol is part of another one. -/
def Contains : Symbol → Symbol → Prop :=
  Relation.ReflTransGen fun whole child => child ∈ whole.children

theorem Contains.of_child {whole child part : Symbol} (mem : child ∈ whole.children)
    (contains : child.Contains part) : whole.Contains part := .head mem contains

end Symbol

end Reification
