import Reification.Proofs.Population
import Reification.Proofs.Restored

/-!
# Gathered declarations

Several symbols are reconstructed one after the other in one registry, for example the subjects of
all entries of some definitions.  Whichever symbol meets a name first, the registry gathers exactly
what is reached from the symbols, and each name is declared as what it stands for.
-/

namespace Reification

open Reconstruct

/-- Whether the body of an alias mentions another alias. -/
def Reconstruct.Unfolds (resolve : Resolver) (name other : String) : Prop :=
  IsAlias resolve name ∧ IsAlias resolve other ∧
    ∃ part ∈ contentsOf resolve name, part.Names other

namespace Definitions

/-- Whether a symbol is the subject of an entry, or a formal parameter, a field or the body of a
name. -/
def Contains (definitions : Definitions) (part : Symbol) : Prop :=
  (∃ key choice, definitions.get? key = some choice ∧ part = choice.subject) ∨
    ∃ name, part ∈ formalsOf definitions.alternativesOf name ++
      contentsOf definitions.alternativesOf name

/-- Whether definitions are well-formed, whatever the subjects of their entries are. -/
structure WellFormed (definitions : Definitions) : Prop where
  /-- Aliases have no formal parameters. -/
  unparameterized : ∀ name, IsAlias definitions.alternativesOf name →
    formalsOf definitions.alternativesOf name = []
  /-- No alias unfolds to itself. -/
  grounded : ∀ name, ¬Relation.TransGen (Unfolds definitions.alternativesOf) name name
  /-- Formal parameters mention no declared names. -/
  plain : ∀ name, ∀ formal ∈ formalsOf definitions.alternativesOf name, ∀ other,
    ¬formal.Names other
  /-- Constructors belong to references to data types. -/
  owned : ∀ part, definitions.Contains part → ∀ owner ∈ part.owners,
    ∃ name parameters, owner = .dataRef name parameters

/-- Whether type parameters with one name have one bound in the formal parameters of each data type
to which a constructor belongs. -/
def Bounded (definitions : Definitions) : Prop :=
  ∀ part, definitions.Contains part → ∀ name parameters, .dataRef name parameters ∈ part.owners →
    ∃ bound : String → Symbol, ∀ formal ∈ formalsOf definitions.alternativesOf name,
      ∀ found ∈ formal.typeParameters, found.2 = bound found.1

end Definitions

namespace Reconstruct

/-- What the bodies of aliases show by their alternatives if no alias has parameters.  No body is
unfolded in another one then. -/
noncomputable def plainBodies (resolve : Resolver) : String → Tree :=
  bodyTree resolve (.plain resolve fun _ => .prim .value)

/-- The stage at which nothing has been declared from definitions whose aliases have no
parameters. -/
noncomputable def Stage.plain (definitions : Definitions) : Stage :=
  .start definitions (.plain definitions.alternativesOf (plainBodies definitions.alternativesOf))

variable {definitions : Definitions} {part owner symbol : Symbol} {symbols : List Symbol}
  {world : World} {scope : Scope} {name other : String}

section WellFormed

variable (wellFormed : definitions.WellFormed)

include wellFormed

/-- What the formal parameters and the bodies show without names solves the equations. -/
theorem plain_solves (name : String) : Solves definitions.alternativesOf
    (.plain definitions.alternativesOf (plainBodies definitions.alternativesOf)) name where
  formals_eq _ := plain_formals_eq (wellFormed.plain name) _ _
  body_eq is_alias := bodyTree_congr is_alias fun _ _ other _ => meaning_congr rfl
    fun other_alias some_formal => absurd (by
      rw [Shapes.formals_plain, wellFormed.unparameterized other other_alias, List.map_nil])
      some_formal

/-- What a name stands for is coherent if type parameters of one name have one bound in its formal
parameters. -/
theorem coherent_of_bounded {bound : String → Symbol}
    (bounded : ∀ formal ∈ formalsOf definitions.alternativesOf name,
      ∀ found ∈ formal.typeParameters, found.2 = bound found.1) {declared : Tree}
    (meaning_eq : meaning definitions.alternativesOf
      (.plain definitions.alternativesOf (plainBodies definitions.alternativesOf)) name =
        some declared) : declared.Coherent := by
  have solves := plain_solves wellFormed name
  have some_alternative := first?_of_meaning meaning_eq
  refine solves.coherent_of_fixed bounded meaning_eq (fixed_of_meaning ?_ ?_ meaning_eq)
  · rw [solves.formals_eq some_alternative, formalTrees, List.forall_mem_map]
    exact fun formal mem => fixed_of_part (bounded formal mem)
      fun other names => absurd names (wellFormed.plain name formal mem other)
  · exact fun is_alias some_formal => absurd
      (solves.formals_eq_nil (wellFormed.unparameterized name is_alias) some_alternative) some_formal

/-- Only aliases unfold. -/
theorem isAlias_of_opens (opens : Opens definitions.alternativesOf name other) :
    IsAlias definitions.alternativesOf name := by
  obtain ⟨part, mem | ⟨is_alias, -⟩, names⟩ := opens
  · exact absurd names (wellFormed.plain name part mem other)
  · exact is_alias

theorem unfolds_of_opens (opens : Opens definitions.alternativesOf name other)
    (other_alias : IsAlias definitions.alternativesOf other) :
    Unfolds definitions.alternativesOf name other := by
  obtain ⟨part, mem | ⟨is_alias, mem⟩, names⟩ := opens
  · exact absurd names (wellFormed.plain name part mem other)
  · exact ⟨is_alias, other_alias, part, mem, names⟩

/-- Nothing unfolds to itself. -/
theorem opens_grounded (name : String) :
    ¬Relation.TransGen (Opens definitions.alternativesOf) name name := by
  intro cycle
  have is_alias {one : String} (path : Relation.TransGen (Opens definitions.alternativesOf) one name) :
      IsAlias definitions.alternativesOf one := by
    obtain ⟨_, opens, -⟩ := Relation.TransGen.head'_iff.mp path
    exact isAlias_of_opens wellFormed opens
  have unfolds {one : String} (path : Relation.TransGen (Opens definitions.alternativesOf) one name) :
      Relation.TransGen (Unfolds definitions.alternativesOf) one name := by
    induction path using Relation.TransGen.head_induction_on with
    | single opens => exact .single (unfolds_of_opens wellFormed opens (is_alias cycle))
    | head opens path ih => exact .head (unfolds_of_opens wellFormed opens (is_alias path)) ih
  exact wellFormed.grounded name (unfolds cycle)

variable (bounded : definitions.Bounded)

include bounded

/-- Constructors keep their owners. -/
theorem keeps_of_contains (contains : definitions.Contains part) (mem : owner ∈ part.owners) :
    (meaning definitions.alternativesOf
      (.plain definitions.alternativesOf (plainBodies definitions.alternativesOf))).Keeps owner := by
  obtain ⟨data, parameters, rfl⟩ := wellFormed.owned part contains owner mem
  obtain ⟨bound, bounded⟩ := bounded part contains data parameters mem
  exact keeps_of_coherent rfl fun _ => coherent_of_bounded wellFormed bounded

/-- Every name can be reconstructed. -/
theorem regular_of_wellFormed (name : String) : Regular definitions.alternativesOf
    (.plain definitions.alternativesOf (plainBodies definitions.alternativesOf)) name where
  direct := not_reachesItself_of_plain (wellFormed.plain name)
  stable _ mem _ owner_mem := keeps_of_contains wellFormed bounded (.inr ⟨name, mem⟩) owner_mem
  solves := plain_solves wellFormed name
  acyclic is_alias some_formal := absurd (wellFormed.unparameterized name is_alias) some_formal

end WellFormed

/-- A world in which some symbols have been reconstructed one after the other. -/
structure Gathers (definitions : Definitions) (symbols : List Symbol) (world : World)
    (scope : Scope) : Prop where
  sound : (Stage.plain definitions).Sound world scope
  orderly : Orderly definitions.alternativesOf world
  complete : Complete definitions.alternativesOf (fun _ => False) world
  covered : ∀ symbol ∈ symbols, ∀ mention ∈ symbol.mentions,
    Covered definitions.alternativesOf world mention
  reached : ∀ ⦃name⦄, world.registry.lookup? name ≠ none →
    ∃ symbol ∈ symbols, Reaches definitions.alternativesOf symbol name
  met : ∀ ⦃name⦄, world.registry.own.rules.get? name ≠ none →
    ∃ symbol ∈ symbols, MeetsSort definitions.alternativesOf symbol name

/-- Nothing has been gathered in a fresh registry. -/
theorem gathers_fresh (definitions : Definitions) (heap : Heap) :
    Gathers definitions [] { store := heap.store } (.bare heap) where
  sound := Stage.sound_start definitions _ heap
  orderly := orderly_fresh _ _
  complete := complete_fresh _ _
  covered := nofun
  reached _ declared := absurd rfl declared
  met _ some_rule := absurd rfl some_rule

namespace Gathers

/-- A further symbol is reconstructed without an error. -/
theorem typeOf_meets (gathers : Gathers definitions symbols world scope)
    (wellFormed : definitions.WellFormed) (bounded : definitions.Bounded)
    (contains : definitions.Contains symbol) :
    (typeOf definitions symbol).Meets world (fun _ after => world.store.Grows after.store ∧
      ∃ wider, scope ≤ wider ∧ Gathers definitions (symbols ++ [symbol]) after wider)
      fun _ _ => False := by
  have builds := Stage.typeWithin_builds le_rfl gathers.sound
    (fun name _ => regular_of_wellFormed wellFormed bounded name)
    (fun _ _ _ _ => ⟨id, False.elim⟩)
    fun owner mem => keeps_of_contains wellFormed bounded contains mem
  have keeps : Keeps definitions.alternativesOf _ _ (typeOf definitions symbol) world :=
    typeWithin_keeps _ symbol world
  have accounts : GivesAccount definitions.alternativesOf
      (MeetsSort definitions.alternativesOf symbol) (typeOf definitions symbol) :=
    typeWithin_givesAccount (.inl rfl) fun _ _ _ =>
      expandWithin_accounts wellFormed.plain (maxDepth definitions)
  refine Building.Meets.mono ((builds.and keeps).and (accounts world gathers.orderly)) ?_
    fun _ _ failed => failed.1.1
  rintro type after ⟨⟨⟨extends_, wider, le, sound, -⟩, advances, covered⟩, accounts⟩
  refine ⟨extends_.grows, wider, le, sound, accounts.orderly, advances.complete gathers.complete,
    fun other mem => ?_, fun name declared => ?_, fun name some_rule => ?_⟩
  · rcases List.mem_append.mp mem with mem | mem
    · exact fun mention mention_mem =>
        (gathers.covered other mem mention mention_mem).of_extends extends_
    · obtain rfl := List.mem_singleton.mp mem
      exact covered
  · by_cases before : world.registry.lookup? name = none
    · exact ⟨symbol, by simp, advances.names_of_new before declared⟩
    · obtain ⟨other, mem, reaches⟩ := gathers.reached before
      exact ⟨other, List.mem_append_left _ mem, reaches⟩
  · rcases accounts.rules_of_new some_rule with before | met
    · obtain ⟨other, mem, met⟩ := gathers.met before
      exact ⟨other, List.mem_append_left _ mem, met⟩
    · exact ⟨symbol, by simp, met⟩

/-- The subjects of some choices are reconstructed one after the other. -/
theorem forM_meets {choices : List Choice} (gathers : Gathers definitions symbols world scope)
    (wellFormed : definitions.WellFormed) (bounded : definitions.Bounded)
    (contains : ∀ choice ∈ choices, definitions.Contains choice.subject) :
    (choices.forM fun choice => discard (typeOf definitions choice.subject)).Meets world
      (fun _ after => ∃ wider,
        Gathers definitions (symbols ++ choices.map (·.subject)) after wider)
      fun _ _ => False := by
  induction choices generalizing symbols world scope with
  | nil =>
    rw [List.map_nil, List.append_nil]
    exact ⟨scope, gathers⟩
  | cons choice choices ih =>
    obtain ⟨head, tail⟩ := List.forall_mem_cons.mp contains
    rw [List.map_cons, List.append_cons]
    refine Building.meets_bind.mpr (Building.meets_discard.mpr ?_)
    refine (gathers.typeOf_meets wellFormed bounded head).mono ?_ fun _ _ => id
    rintro _ after ⟨-, wider, -, gathered⟩
    exact ih gathered tail

end Gathers

end Reconstruct

end Reification
