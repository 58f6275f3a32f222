import Mathlib.Data.Finset.Card
import Reification.Proofs.Saturation
import Reification.Proofs.Tidy

/-!
# Depths which suffice

Expansions of names are nested in two ways.  While the formal parameters of a name are followed, the
name is not declared yet, but those which are left to follow become fewer.  In the body of a declared
name all may be followed again, but fewer names are left to be declared.  As many expansions are
nested as the two together allow.
-/

namespace Reification.Reconstruct

variable {resolve : Resolver} {names : Finset String} {depth : Nat} {world after : World}
  {name other : String}

open Classical in
/-- The names which are left to be declared. -/
noncomputable def undeclared (names : Finset String) (world : World) : Finset String :=
  names.filter fun name => world.registry.lookup? name = none

open Classical in
/-- The number of names to which the formal parameters of a name lead. -/
noncomputable def rank (resolve : Resolver) (names : Finset String) (name : String) : Nat :=
  (names.filter fun other => Relation.TransGen (Requires resolve) name other).card

/-- Whether as many expansions as a depth has can be nested for a name, if the formal parameters of
that lead to `left` others. -/
def Affords (names : Finset String) (depth : Nat) (world : World) (left : Nat) : Prop :=
  (undeclared names world).card * (names.card + 1) + left < depth + (names.card + 1)

/-- Whether a name can be expanded in a world with at most `depth` expansions nested. -/
def Suffices (resolve : Resolver) (names : Finset String) (depth : Nat) (world : World)
    (name : String) : Prop :=
  (undeclared names world).card * (names.card + 1) + rank resolve names name <
    depth + (names.card + 1)

theorem rank_le (name : String) : rank resolve names name ≤ names.card := by
  classical
  exact Finset.card_le_card (Finset.filter_subset _ _)

/-- Formal parameters lead to names from which fewer ones are left. -/
theorem rank_lt (acyclic : ∀ name, ¬Relation.TransGen (Requires resolve) name name)
    (requires : Requires resolve name other) (mem : other ∈ names) :
    rank resolve names other < rank resolve names name :=
  card_transGen_lt requires mem (acyclic other)

theorem undeclared_subset (declared : ∀ ⦃name⦄, world.registry.lookup? name ≠ none →
    after.registry.lookup? name ≠ none) : undeclared names after ⊆ undeclared names world := by
  classical
  intro name mem
  obtain ⟨name_mem, free⟩ := Finset.mem_filter.mp mem
  exact Finset.mem_filter.mpr ⟨name_mem, by_contra fun known => declared known free⟩

namespace Affords

variable {left fewer : Nat}

theorem mono (affords : Affords names depth world left)
    (declared : ∀ ⦃name⦄, world.registry.lookup? name ≠ none →
      after.registry.lookup? name ≠ none) : Affords names depth after left := by
  have card_le : (undeclared names after).card ≤ (undeclared names world).card :=
    Finset.card_le_card (undeclared_subset declared)
  have := Nat.mul_le_mul_right (names.card + 1) card_le
  unfold Affords at *
  omega

theorem of_le {deeper : Nat} (affords : Affords names depth world left) (le : depth ≤ deeper) :
    Affords names deeper world left := by
  unfold Affords at *
  omega

/-- No name which is left to be declared can be expanded at the depth zero. -/
theorem pos (affords : Affords names depth world left) (mem : name ∈ undeclared names world) :
    0 < depth := by
  have := Nat.le_mul_of_pos_left (names.card + 1) (Finset.card_pos.mpr ⟨name, mem⟩)
  unfold Affords at affords
  omega

/-- The formal parameters of a name are reconstructed before it is declared. -/
theorem of_lt (affords : Affords names (depth + 1) world left) (lt : fewer < left) :
    Affords names depth world fewer := by
  unfold Affords at *
  omega

/-- As soon as one more name has been declared, all may be followed again. -/
theorem of_declared (affords : Affords names (depth + 1) world left)
    (mem : name ∈ undeclared names world) (declared : ∀ ⦃name⦄,
      world.registry.lookup? name ≠ none → after.registry.lookup? name ≠ none)
    (name_declared : after.registry.lookup? name ≠ none) (le : fewer ≤ names.card) :
    Affords names depth after fewer := by
  classical
  have card_lt : (undeclared names after).card < (undeclared names world).card := by
    refine Finset.card_lt_card ((Finset.ssubset_iff_of_subset (undeclared_subset declared)).mpr
      ⟨name, mem, fun again => name_declared (Finset.mem_filter.mp again).2⟩)
  have := Nat.mul_le_mul_right (names.card + 1) card_lt
  have := Nat.succ_mul (undeclared names after).card (names.card + 1)
  unfold Affords at *
  omega

/-- The greatest depth affords the expansion of all names. -/
theorem of_maxDepth {definitions : Definitions} (card_le : names.card ≤ definitions.size)
    (world : World) (le : left ≤ names.card) :
    Affords names (maxDepth definitions) world left := by
  classical
  have card_undeclared : (undeclared names world).card ≤ names.card :=
    Finset.card_le_card (Finset.filter_subset _ _)
  have := Nat.mul_le_mul (card_undeclared.trans card_le) (Nat.succ_le_succ card_le)
  unfold Affords maxDepth
  simp only [Nat.succ_eq_add_one] at this
  omega

end Affords

namespace Suffices

theorem mono (suffices_ : Suffices resolve names depth world name)
    (retains : world.Retains after) : Suffices resolve names depth after name :=
  Affords.mono suffices_ fun _ => retains.declared

/-- No name which is left to be declared can be expanded at the depth zero. -/
theorem pos (suffices_ : Suffices resolve names depth world name)
    (mem : name ∈ undeclared names world) : 0 < depth :=
  Affords.pos suffices_ mem

/-- The formal parameters of a name are reconstructed before it is declared. -/
theorem of_requires (suffices_ : Suffices resolve names (depth + 1) world name)
    (acyclic : ∀ name, ¬Relation.TransGen (Requires resolve) name name)
    (requires : Requires resolve name other) (mem : other ∈ names) :
    Suffices resolve names depth world other :=
  Affords.of_lt suffices_ (rank_lt acyclic requires mem)

/-- The rest of the alternatives of a name is reconstructed after it has been declared. -/
theorem of_declared (suffices_ : Suffices resolve names (depth + 1) world name)
    (mem : name ∈ undeclared names world) (retains : world.Retains after)
    (declared : after.registry.lookup? name ≠ none) (other : String) :
    Suffices resolve names depth after other :=
  Affords.of_declared suffices_ mem (fun _ => retains.declared) declared (rank_le other)

/-- The greatest depth suffices for all names. -/
theorem of_maxDepth {definitions : Definitions} (card_le : names.card ≤ definitions.size)
    (world : World) (name : String) :
    Suffices resolve names (maxDepth definitions) world name :=
  Affords.of_maxDepth card_le world (rank_le name)

end Suffices

end Reification.Reconstruct
