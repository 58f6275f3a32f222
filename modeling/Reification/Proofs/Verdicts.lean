import Mathlib.Data.List.Infix
import Reification.Proofs.Preservation
import Reification.Proofs.Restored
import Reification.Suite.Report

/-!
# Verdicts on cases

A case is reported as a success just if all phases succeed as they should, or if the phase fails
which should, and what the case comes to is the expected text, if there is one.  The report lists the
phases up to the first one which fails or is not as expected.  There is one gap: a failure is only
looked for in the phases, so that nothing is expected of a case which is supposed to fail in a phase
that does not exist.
-/

namespace Reification

/-- The phases in the order in which they are run. -/
def Phase.all : List Phase := [.parse, .reconstruct, .reify, .rebuild]

theorem Phase.name_injective : Function.Injective Phase.name := by
  intro one other names_eq
  cases one <;> cases other <;> first | rfl | exact absurd names_eq (by decide)

namespace Case

/-- Whether some outcomes are those of some phases, of which none is run after one which fails. -/
inductive Runs : List Phase → List Outcome → Prop where
  | finished : Runs [] []
  | failed (phase : Phase) (text : String) (phases : List Phase) :
    Runs (phase :: phases) [.failed phase text]
  | succeeded (phase : Phase) (text : String) {phases : List Phase} {outcomes : List Outcome}
    (rest : Runs phases outcomes) : Runs (phase :: phases) (.ok phase text :: outcomes)

theorem runs_singleton (outcome : Outcome) : Runs [outcome.phase] [outcome] := by
  obtain ⟨phase, text, succeeded⟩ := outcome
  cases succeeded with
  | false => exact .failed phase text []
  | true => exact .succeeded phase text .finished

theorem rebuild_phase (store : Store) (before : Ty) (reified : Reified) :
    (rebuild store before reified).phase = .rebuild := by
  rw [rebuild]
  split
  · rfl
  · split
    · exact ofWorld_phase ..
    · rfl
    · rfl

theorem runs_reifyOn (world : World) (type : Ty) : Runs [.reify, .rebuild] (reifyOn world type) := by
  rw [reifyOn]
  split
  · exact .failed ..
  · next reified _ =>
    have runs := runs_singleton (rebuild world.store type reified)
    rw [rebuild_phase] at runs
    exact .succeeded _ _ runs

theorem reconstruct_inherited_eq {value : Value} {type : Ty} {world : World}
    (run_eq : value.reconstruct.run {} = (.ok type, world)) : world.registry.inherited = [] := by
  cases value with
  | type reified =>
    have preserves := Reconstruct.typeWithin_preserves (Reconstruct.maxDepth reified.definitions)
      reified.symbol (.refl {} : World.Preserves reified.definitions.alternativesOf _ _)
    exact (congrArg (·.2.registry.inherited) run_eq).symm.trans preserves.inherited_eq
  | _ => cases run_eq

/-- What has been reconstructed can always be shown, since the registry has no parents. -/
theorem runs_reconstructOn (value : Value) :
    Runs [.reconstruct, .reify, .rebuild] (reconstructOn value) := by
  rw [reconstructOn]
  rcases run_eq : value.reconstruct.run {} with ⟨failure | type, world⟩
  · exact .failed ..
  · obtain ⟨text, display_eq⟩ := World.exists_display (reconstruct_inherited_eq run_eq) type
    simp only [Outcome.ofWorld, display_eq]
    exact .succeeded _ _ (runs_reifyOn world type)

theorem runs_outcomes (text : String) : Runs Phase.all (outcomes text) := by
  rw [outcomes]
  split
  · exact .failed ..
  · exact .succeeded _ _ (runs_reconstructOn _)

/-- Only the last phase which is run may have failed. -/
theorem Runs.before_succeeded {phases : List Phase} {before rest : List Outcome} {last : Outcome}
    (runs : Runs phases (before ++ last :: rest)) : ∀ outcome ∈ before, outcome.succeeded = true := by
  induction before generalizing phases with
  | nil => nofun
  | cons head before ih =>
    rw [List.cons_append] at runs
    generalize others_eq : before ++ last :: rest = others at runs ih
    cases runs with
    | failed => simp at others_eq
    | succeeded phase text runs => exact List.forall_mem_cons.mpr ⟨rfl, ih runs⟩

/-- The first phases are run, and all of them if the last one which is run has succeeded. -/
theorem Runs.exists_last {phases : List Phase} {outcomes : List Outcome} (runs : Runs phases outcomes)
    (some_phase : phases ≠ []) : ∃ before last, outcomes = before ++ [last] ∧
      outcomes.map (·.phase) <+: phases ∧
        (last.succeeded = true → outcomes.map (·.phase) = phases) := by
  induction runs with
  | finished => exact absurd rfl some_phase
  | failed phase text phases => exact ⟨[], _, rfl, by simp [Outcome.failed], nofun⟩
  | @succeeded phase text phases outcomes rest ih =>
    cases phases with
    | nil =>
      cases rest
      exact ⟨[], _, rfl, by simp [Outcome.ok], fun _ => rfl⟩
    | cons =>
      obtain ⟨before, last, rfl, first_phases, all_phases⟩ := ih nofun
      refine ⟨.ok phase text :: before, last, rfl, ?_, fun succeeded => ?_⟩
      · simpa [Outcome.ok] using first_phases
      · rw [List.map_cons, all_phases succeeded]
        rfl

/-- A phase which is run before another is another one, and not the last of all. -/
theorem Runs.before_phase_ne {before : List Outcome} {last outcome : Outcome}
    (runs : Runs Phase.all (before ++ [last])) (mem : outcome ∈ before) :
    outcome.phase ≠ last.phase ∧ outcome.phase ≠ .rebuild := by
  obtain ⟨_, _, -, first_phases, -⟩ := runs.exists_last nofun
  have ordered : Phase.all.Pairwise fun one other => one ≠ other ∧ one ≠ .rebuild := by decide
  have run_ordered := ordered.sublist first_phases.sublist
  rw [List.map_append, List.pairwise_append] at run_ordered
  exact run_ordered.2.2 _ (List.mem_map_of_mem mem) _ (List.mem_singleton_self _)

theorem last_phase {before : List Outcome} {last : Outcome}
    (phases_eq : (before ++ [last]).map (·.phase) = Phase.all) : last.phase = .rebuild := by
  simpa [Phase.all] using congrArg List.getLast? phases_eq

end Case

namespace Expectation

/-- Whether a phase succeeds or fails as it should, with the expected text if the case should stop
at it. -/
structure Accepts (expectation : Expectation) (outcome : Outcome) : Prop where
  succeeded_iff : outcome.succeeded = true ↔ expectation.failure ≠ some outcome.phase.name
  text_eq : expectation.failure = some outcome.phase.name ∨
      expectation.failure = none ∧ outcome.phase = .rebuild →
    ∀ expected ∈ expectation.text, outcome.text = expected

/-- Whether a case comes to what is expected of it: all phases succeed, or the one fails which should,
and the text is the expected one. -/
inductive IsMetBy (expectation : Expectation) : List Outcome → String → Prop where
  | success {before : List Outcome} {last : Outcome} (failure_eq : expectation.failure = none)
    (phases_eq : (before ++ [last]).map (·.phase) = Phase.all)
    (succeeded : ∀ outcome ∈ before ++ [last], outcome.succeeded = true)
    (text_eq : ∀ expected ∈ expectation.text, last.text = expected) :
    expectation.IsMetBy (before ++ [last]) last.text
  | failure {before : List Outcome} {last : Outcome}
    (failure_eq : expectation.failure = some last.phase.name)
    (before_succeeded : ∀ outcome ∈ before, outcome.succeeded = true)
    (failed : last.succeeded = false)
    (text_eq : ∀ expected ∈ expectation.text, last.text = expected) :
    expectation.IsMetBy (before ++ [last]) last.text

/-- Whether all phases succeed, although the case is supposed to fail in one which does not exist. -/
inductive Overlooks (expectation : Expectation) : List Outcome → String → Prop where
  | intro {name : String} {before : List Outcome} {last : Outcome}
    (failure_eq : expectation.failure = some name) (unknown : ∀ phase : Phase, phase.name ≠ name)
    (phases_eq : (before ++ [last]).map (·.phase) = Phase.all)
    (succeeded : ∀ outcome ∈ before ++ [last], outcome.succeeded = true) :
    expectation.Overlooks (before ++ [last]) last.text

/-- Whether an outcome is the first at which a case stops: it is a failure, or it is not as expected,
or there are no more phases. -/
structure StopsAt (expectation : Expectation) (before : List Outcome) (last : Outcome) : Prop where
  before_succeeded : ∀ outcome ∈ before, outcome.succeeded = true
  before_accepted : ∀ outcome ∈ before, expectation.Accepts outcome
  first_phases : (before ++ [last]).map (·.phase) <+: Phase.all
  stops : last.succeeded = false ∨ ¬expectation.Accepts last ∨ last.phase = .rebuild

variable {expectation : Expectation} {outcome : Outcome}

theorem mishap?_eq_none_iff : expectation.mishap? outcome = none ↔ expectation.Accepts outcome := by
  have fails_iff : expectation.failsAt outcome.phase = true ↔
      expectation.failure = some outcome.phase.name := beq_iff_eq
  have mem_textAt_iff (expected : String) : expected ∈ expectation.textAt outcome.phase ↔
      (expectation.failure = some outcome.phase.name ∨
        expectation.failure = none ∧ outcome.phase = .rebuild) ∧ expected ∈ expectation.text := by
    simp [textAt, fails_iff]
  have accepts_iff : expectation.Accepts outcome ↔
      (outcome.succeeded = true ↔ ¬expectation.failsAt outcome.phase = true) ∧
        ∀ expected ∈ expectation.textAt outcome.phase, outcome.text = expected := by
    simp only [mem_textAt_iff, fails_iff, and_imp]
    constructor
    · exact fun accepts => ⟨accepts.succeeded_iff, fun expected stops => accepts.text_eq stops expected⟩
    · exact fun ⟨succeeded_iff, text_eq⟩ => ⟨succeeded_iff, fun stops expected => text_eq expected stops⟩
  rw [accepts_iff, mishap?]
  cases outcome.succeeded <;> cases expectation.failsAt outcome.phase <;>
    cases expectation.textAt outcome.phase <;> simp

theorem verdict_judge_eq_ok_iff {text result : String} {outcomes : List Outcome} :
    (expectation.judge text outcomes).verdict = .ok result ↔
      (∀ outcome ∈ outcomes, expectation.Accepts outcome) ∧
        (outcomes.getLast?.map (·.text)).getD text = result := by
  induction outcomes generalizing text with
  | nil => simp [judge]
  | cons outcome outcomes ih =>
    rw [judge, List.forall_mem_cons, ← mishap?_eq_none_iff]
    cases expectation.mishap? outcome with
    | some mishap => simp
    | none => cases outcomes <;> simp [ih, List.getLast?_cons]

theorem phases_judge (expectation : Expectation) (text : String) {outcomes : List Outcome}
    (some_outcome : outcomes ≠ []) :
    ∃ before last rest, outcomes = before ++ last :: rest ∧
      (expectation.judge text outcomes).phases =
        (before ++ [last]).map (fun outcome => (outcome.phase, outcome.text)) ∧
      (∀ outcome ∈ before, expectation.Accepts outcome) ∧
        (¬expectation.Accepts last ∨ rest = []) := by
  induction outcomes generalizing text with
  | nil => exact absurd rfl some_outcome
  | cons outcome outcomes ih =>
    rw [judge]
    cases mishap_eq : expectation.mishap? outcome with
    | some mishap =>
      refine ⟨[], outcome, outcomes, rfl, rfl, nofun, .inl ?_⟩
      rw [← mishap?_eq_none_iff, mishap_eq]
      exact Option.some_ne_none mishap
    | none =>
      have accepts := mishap?_eq_none_iff.mp mishap_eq
      cases outcomes with
      | nil => exact ⟨[], outcome, [], rfl, rfl, nofun, .inr rfl⟩
      | cons next outcomes =>
        obtain ⟨before, last, rest, outcomes_eq, phases_eq, before_accepted, stops⟩ :=
          ih outcome.text (List.cons_ne_nil next outcomes)
        have before_accepted := List.forall_mem_cons.mpr ⟨accepts, before_accepted⟩
        exact ⟨outcome :: before, last, rest, congrArg _ outcomes_eq, congrArg _ phases_eq,
          before_accepted, stops⟩

theorem IsMetBy.failure_eq {outcomes : List Outcome} {result : String}
    (isMetBy : expectation.IsMetBy outcomes result) :
    expectation.failure = none ∨ ∃ phase : Phase, expectation.failure = some phase.name := by
  cases isMetBy with
  | success failure_eq => exact .inl failure_eq
  | failure failure_eq => exact .inr ⟨_, failure_eq⟩

theorem IsMetBy.accepts {outcomes : List Outcome} {result : String}
    (isMetBy : expectation.IsMetBy outcomes result) (runs : Case.Runs Phase.all outcomes) :
    ∀ outcome ∈ outcomes, expectation.Accepts outcome := by
  intro outcome mem
  cases isMetBy with
  | @success before last failure_eq phases_eq succeeded text_eq =>
    refine ⟨by simp [succeeded outcome mem, failure_eq], fun stops expected expected_mem => ?_⟩
    rcases List.mem_append.mp mem with mem | mem
    · rcases stops with fails | ⟨-, phase_eq⟩
      · cases failure_eq.symm.trans fails
      · exact absurd phase_eq (runs.before_phase_ne mem).2
    · rw [List.mem_singleton.mp mem]
      exact text_eq expected expected_mem
  | @failure before last failure_eq before_succeeded failed text_eq =>
    rcases List.mem_append.mp mem with mem | mem
    · have name_ne : expectation.failure ≠ some outcome.phase.name := by
        rw [failure_eq, Ne, Option.some_inj, eq_comm]
        exact fun name_eq => (runs.before_phase_ne mem).1 (Phase.name_injective name_eq)
      refine ⟨iff_of_true (before_succeeded outcome mem) name_ne, fun stops => ?_⟩
      rcases stops with fails | ⟨succeeds, -⟩
      · exact absurd fails name_ne
      · cases failure_eq.symm.trans succeeds
    · rw [List.mem_singleton.mp mem]
      exact ⟨by simp [failed, failure_eq], fun _ => text_eq⟩

theorem Overlooks.accepts {outcomes : List Outcome} {result : String}
    (overlooks : expectation.Overlooks outcomes result) :
    ∀ outcome ∈ outcomes, expectation.Accepts outcome := by
  obtain ⟨failure_eq, unknown, -, succeeded⟩ := overlooks
  refine fun outcome mem => ⟨?_, fun stops => ?_⟩
  · simp [succeeded outcome mem, failure_eq, (unknown outcome.phase).symm]
  · rcases stops with fails | ⟨succeeds, -⟩
    · exact absurd (Option.some.inj (fails.symm.trans failure_eq)) (unknown _)
    · cases failure_eq.symm.trans succeeds

/-- Everything is as expected in two cases: if what is expected is met, or if a failure is expected in
a phase which does not exist. -/
theorem accepts_all_iff {outcomes : List Outcome} {result : String}
    (runs : Case.Runs Phase.all outcomes) :
    (∀ outcome ∈ outcomes, expectation.Accepts outcome) ∧
        outcomes.getLast?.map (·.text) = some result ↔
      expectation.IsMetBy outcomes result ∨ expectation.Overlooks outcomes result := by
  constructor
  · rintro ⟨accepted, text_eq⟩
    obtain ⟨before, last, rfl, -, all_phases⟩ := runs.exists_last nofun
    have last_accepted := accepted last (List.mem_append_right _ (List.mem_singleton_self last))
    have succeeded (last_succeeded : last.succeeded = true) :
        ∀ outcome ∈ before ++ [last], outcome.succeeded = true := by
      simpa [or_imp, forall_and] using ⟨runs.before_succeeded, last_succeeded⟩
    obtain rfl : last.text = result := by simpa using text_eq
    cases failure_eq : expectation.failure with
    | none =>
      have last_succeeded : last.succeeded = true :=
        last_accepted.succeeded_iff.mpr (by simp [failure_eq])
      have phases_eq := all_phases last_succeeded
      exact .inl (.success failure_eq phases_eq (succeeded last_succeeded)
        (last_accepted.text_eq (.inr ⟨failure_eq, Case.last_phase phases_eq⟩)))
    | some name =>
      cases last_eq : last.succeeded with
      | false =>
        have fails : expectation.failure = some last.phase.name := by
          simpa [last_eq] using last_accepted.succeeded_iff
        exact .inl (.failure fails runs.before_succeeded last_eq (last_accepted.text_eq (.inl fails)))
      | true =>
        -- all phases have been run, so that the one with the name would have had to fail
        have phases_eq := all_phases last_eq
        refine .inr (.intro failure_eq (fun phase name_eq => ?_) phases_eq (succeeded last_eq))
        have mem : phase ∈ (before ++ [last]).map (·.phase) := by
          rw [phases_eq]
          cases phase <;> decide
        obtain ⟨outcome, outcome_mem, rfl⟩ := List.mem_map.mp mem
        exact (accepted outcome outcome_mem).succeeded_iff.mp (succeeded last_eq outcome outcome_mem)
          (failure_eq.trans (congrArg some name_eq.symm))
  · rintro (isMetBy | overlooks)
    · refine ⟨isMetBy.accepts runs, ?_⟩
      cases isMetBy <;> simp
    · refine ⟨overlooks.accepts, ?_⟩
      cases overlooks
      simp

end Expectation

namespace Case

/-- A case is reported as a success just if what is expected of it is met, except that nothing is
expected if it is supposed to fail in a phase which does not exist; and the report lists the phases, in
their order, up to the first which fails or is not as expected. -/
theorem run_reports (expectation : Expectation) (text : String) :
    Runs Phase.all (outcomes text) ∧
    (∀ result, (run expectation text).verdict = .ok result ↔
      expectation.IsMetBy (outcomes text) result ∨ expectation.Overlooks (outcomes text) result) ∧
    ∃ before last rest, outcomes text = before ++ last :: rest ∧
      expectation.StopsAt before last ∧
      (run expectation text).phases =
        (before ++ [last]).map fun outcome => (outcome.phase, outcome.text) := by
  have runs := runs_outcomes text
  refine ⟨runs, fun result => ?_, ?_⟩
  · rw [run, Expectation.verdict_judge_eq_ok_iff, ← Expectation.accepts_all_iff runs]
    obtain ⟨before, last, outcomes_eq, -⟩ := runs.exists_last nofun
    simp [outcomes_eq]
  · obtain ⟨others, final, outcomes_eq, first_phases, all_phases⟩ := runs.exists_last nofun
    obtain ⟨before, last, rest, stops_eq, phases_eq, accepted, stops⟩ :=
      expectation.phases_judge text (outcomes_eq ▸ List.concat_ne_nil final others)
    refine ⟨before, last, rest, stops_eq, ⟨?_, accepted, ?_, ?_⟩, phases_eq⟩
    · rw [stops_eq] at runs
      exact runs.before_succeeded
    · have begins : before ++ [last] <+: outcomes text := ⟨rest, by simp [stops_eq]⟩
      exact (begins.map _).trans first_phases
    · rcases stops with rejected | rfl
      · exact .inr (.inl rejected)
      · obtain ⟨rfl, last_eq⟩ := List.append_inj' (outcomes_eq.symm.trans stops_eq) rfl
        cases last_eq
        rw [outcomes_eq] at all_phases
        cases succeeded_eq : final.succeeded with
        | false => exact .inl rfl
        | true => exact .inr (.inr (last_phase (all_phases succeeded_eq)))

/-- The primitive type of integers, of which nothing else is known. -/
def integer : Reified := ⟨.prim .int, ∅⟩

def integer.text : String :=
  "\x7b\"type\":\x7b\"symbol\":\"int\",\"definitions\":\x7b\x7d\x7d\x7d"

theorem integer.parse_eq : Value.parse? integer.text = some (.type integer) := by
  refine Value.parse?_eq_of_bind ?_
  rw [Value.parse?, Json.parse?, integer.text, String.toList_ofList]
  decide +kernel

/-- All phases succeed, although the case is supposed to fail, and what it comes to is not compared
with what is expected. -/
theorem integer_overlooked :
    (run ⟨some "nonsense", some "str"⟩ integer.text).verdict = .ok "int" ∧
    ¬∀ expectation text result, (run expectation text).verdict = .ok result →
      expectation.IsMetBy (outcomes text) result := by
  have verdict_eq : (run ⟨some "nonsense", some "str"⟩ integer.text).verdict = .ok "int" := by
    rw [run, outcomes, integer.parse_eq]
    decide +kernel
  refine ⟨verdict_eq, fun reports => ?_⟩
  have isMetBy := reports ⟨some "nonsense", some "str"⟩ integer.text "int" verdict_eq
  rcases isMetBy.failure_eq with succeeds | ⟨phase, fails⟩
  · cases succeeds
  · cases phase <;> exact absurd fails (by decide)

end Case

end Reification
