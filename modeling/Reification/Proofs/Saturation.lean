import Mathlib.Data.Finset.Card
import Mathlib.Logic.Relation

/-!
# Saturation

A growing sequence of sets which all lie in one finite set takes a value twice in a row within as
many steps as that set has elements.  For the same reason one can argue by induction along a relation
without cycles which leads into a finite set.
-/

namespace Reification

theorem exists_eq_succ_of_growing {α : Type} (sets : Nat → Finset α) (bound : Finset α)
    (growing : ∀ step, sets step ⊆ sets (step + 1)) (bounded : ∀ step, sets step ⊆ bound) :
    ∃ step ≤ bound.card, sets step = sets (step + 1) := by
  by_contra never
  push Not at never
  have card_ge : ∀ step ≤ bound.card + 1, step ≤ (sets step).card := by
    intro step
    induction step with
    | zero => simp
    | succ step ih =>
      intro step_le
      have smaller : (sets step).card < (sets (step + 1)).card :=
        Finset.card_lt_card ((growing step).ssubset_of_ne (never step (by omega)))
      have := ih (by omega)
      omega
  have too_many := card_ge (bound.card + 1) le_rfl
  have few := Finset.card_le_card (bounded (bound.card + 1))
  omega

open Classical in
/-- From an element to which a relation leads, but not back to it, fewer others are left. -/
theorem card_transGen_lt {α : Type} {R : α → α → Prop} {bound : Finset α} {one other : α}
    (related : R one other) (mem : other ∈ bound) (acyclic : ¬Relation.TransGen R other other) :
    (bound.filter (Relation.TransGen R other)).card <
      (bound.filter (Relation.TransGen R one)).card := by
  refine Finset.card_lt_card ((Finset.ssubset_iff_of_subset fun last last_mem => ?_).mpr
    ⟨other, Finset.mem_filter.mpr ⟨mem, .single related⟩, fun again => ?_⟩)
  · obtain ⟨last_mem, path⟩ := Finset.mem_filter.mp last_mem
    exact Finset.mem_filter.mpr ⟨last_mem, .head related path⟩
  · exact acyclic (Finset.mem_filter.mp again).2

/-- What holds of an element as soon as it holds of all those to which it is related holds of all
elements, if the relation has no cycles and leads into a finite set. -/
theorem induction_of_acyclic {α : Type} {R : α → α → Prop} (bound : Finset α)
    (bounded : ∀ {one other}, R one other → other ∈ bound)
    (acyclic : ∀ one, ¬Relation.TransGen R one one) {P : α → Prop}
    (step : ∀ one, (∀ other, R one other → P other) → P one) (one : α) : P one := by
  classical
  generalize card_eq : (bound.filter (Relation.TransGen R one)).card = card
  induction card using Nat.strong_induction_on generalizing one with
  | _ card ih =>
    refine step one fun other related => ih _ ?_ other rfl
    rw [← card_eq]
    exact card_transGen_lt related (bounded related) (acyclic other)

end Reification
