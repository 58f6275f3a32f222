import Reification.Proofs.Insertions
import Reification.Proofs.Occurrences

/-!
# Reconstructions end

A reconstruction ends if aliases have no formal parameters and those of data types do not lead in
cycles, however the names refer to each other otherwise.
-/

namespace Reification.Reconstruct

variable {definitions : Definitions}

/-- If aliases have no formal parameters and those of data types do not lead in cycles, then a
reconstruction into a fresh registry ends, whether with a type or with an error.  As in all
reconstructions, every name which is declared in the end is inserted into the declarations exactly
once on the way, and no other name is. -/
theorem reconstruct_terminates (terminating : Terminating definitions.alternativesOf)
    (symbol : Symbol) : ∃ names outcome,
      (Reified.reconstruct ⟨symbol, definitions⟩).run.run {} = outcome ∧
        outcome.1 ≠ .error .endless ∧
          (Reified.reconstruct ⟨symbol, definitions⟩).Traces {} names outcome ∧ names.Nodup ∧
            ∀ name, name ∈ names ↔ outcome.2.registry.lookup? name ≠ none := by
  have inserts_once : (Reified.reconstruct ⟨symbol, definitions⟩).InsertsOnce :=
    typeWithin_insertsOnce (maxDepth definitions) symbol
  obtain ⟨names, traces, inserts⟩ := inserts_once {}
  refine ⟨names, _, rfl, fun endless => ?_, traces, inserts.nodup,
    fun name => (inserts.declared_iff.trans (or_iff_right fun declared => declared rfl)).symm⟩
  rcases run_eq : (Reified.reconstruct ⟨symbol, definitions⟩).run.run {} with ⟨failure | _, world⟩
  · rw [run_eq] at endless
    obtain rfl := Except.error.inj endless
    have ⟨_, ends⟩ := (Building.meets_iff_of_run_eq_error run_eq).mp
      (Setting.fresh_tidies definitions symbol)
    exact ends terminating rfl
  · rw [run_eq] at endless
    cases endless

/-- Data types and an alias which refer to each other in their fields, in actual parameters, in the
bound of a formal parameter and in a constructor of their own. -/
def entangled : Definitions where
  entries := [
    ("E", {
      subject := .dataRef "E" []
      alternatives := ⟨[{
        subject := .dataRef "E" []
        name := some "e"
        symbols := [.list (.dataRef "F" [.dataRef "E" []]), .aliasRef "S" []] }],
          List.pairwise_singleton _ _⟩ }),
    ("F", {
      subject := .dataRef "F" [.parameter "T" (.dataRef "G" [])]
      alternatives := ⟨[{
        subject := .dataRef "F" [.parameter "T" (.dataRef "G" [])]
        name := some "f"
        symbols := [.parameter "T" (.dataRef "G" [])] }], List.pairwise_singleton _ _⟩ }),
    ("G", {
      subject := .dataRef "G" []
      alternatives := ⟨[{
        subject := .dataRef "G" []
        name := some "g"
        symbols := [.constructor (.dataRef "G" []) "g" []] }], List.pairwise_singleton _ _⟩ }),
    ("S", {
      subject := .aliasRef "S" []
      alternatives := ⟨[{
        subject := .aliasRef "S" []
        symbols := [.dataRef "E" []] }], List.pairwise_singleton _ _⟩ })]
  increasing := by decide

/-- Only one name has formal parameters, which mention one other name. -/
theorem entangled_formals {name : String} {formal : Symbol}
    (mem : formal ∈ formalsOf entangled.alternativesOf name) :
    name = "F" ∧ formal = .parameter "T" (.dataRef "G" []) := by
  rcases choice_eq : entangled.get? name with _ | choice
  · simp [formalsOf, subjectOf?, Definitions.alternativesOf, choice_eq, OrderedSet.first?] at mem
  · have entry := Table.get?_eq_some_iff.mp choice_eq
    simp only [entangled, List.mem_cons, Prod.mk.injEq, List.not_mem_nil, or_false] at entry
    rcases entry with ⟨rfl, rfl⟩ | ⟨rfl, rfl⟩ | ⟨rfl, rfl⟩ | ⟨rfl, rfl⟩
    · cases mem
    · exact ⟨rfl, List.mem_singleton.mp mem⟩
    · cases mem
    · cases mem

theorem entangled_terminating : Terminating entangled.alternativesOf where
  formals_eq_nil name is_alias := by
    refine List.eq_nil_iff_forall_not_mem.mpr fun formal mem => ?_
    obtain ⟨rfl, -⟩ := entangled_formals mem
    obtain ⟨other, parameters, subject_eq⟩ := is_alias
    cases subject_eq
  acyclic name path := by
    have requires {name other : String} (requires : Requires entangled.alternativesOf name other) :
        name = "F" ∧ other = "G" := by
      obtain ⟨formal, mem, names⟩ := requires
      obtain ⟨rfl, rfl⟩ := entangled_formals mem
      simp at names
      exact ⟨rfl, names.symm⟩
    -- A cycle would leave the only name with formal parameters and come back to the other one.
    obtain ⟨_, first, -⟩ := Relation.TransGen.head'_iff.mp path
    obtain ⟨_, -, last⟩ := Relation.TransGen.tail'_iff.mp path
    exact absurd ((requires first).1.symm.trans (requires last).2) (by decide)

theorem entangled_terminates : ∃ names outcome,
    (Reified.reconstruct ⟨.dataRef "E" [], entangled⟩).run.run {} = outcome ∧
      outcome.1 ≠ .error .endless ∧
        (Reified.reconstruct ⟨.dataRef "E" [], entangled⟩).Traces {} names outcome ∧ names.Nodup ∧
          ∀ name, name ∈ names ↔ outcome.2.registry.lookup? name ≠ none :=
  reconstruct_terminates entangled_terminating _

end Reification.Reconstruct
