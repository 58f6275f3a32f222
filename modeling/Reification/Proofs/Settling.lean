import Reification.Proofs.Verdicts
import Reification.Suite.Run

/-!
# Settled mismatches

The expected text of a case is only compared with what the case comes to at the end of its run.  Once
the texts of mismatching cases have been written down, another run therefore finds them as expected,
and all other cases come to what they came to before.  There is one gap: white space at the end of a
text is lost when it is read again, so that the case still mismatches.  Another update changes nothing
in either case.
-/

namespace Reification

theorem Text.trimEnd_append_newline (text : String) : trimEnd (text ++ "\n") = trimEnd text := by
  have newline : isBlank '\n' = true := rfl
  simp [trimEnd, dropBlankEnd, newline]

namespace Expectation

/-- The verdict on a text which is compared with the expected one, if there is one. -/
def compared (expected : Option String) (actual : String) : Verdict :=
  match expected with
  | some expected => if actual = expected then .ok actual else .error (.mismatch expected actual)
  | none => .ok actual

/-- Whether a verdict is that a text is not the expected one. -/
def IsMismatch (verdict : Verdict) : Prop :=
  ∃ expected actual, verdict = .error (.mismatch expected actual)

variable {failure : Option String} {outcome last : Outcome} {before : List Outcome}

theorem judge_singleton (expectation : Expectation) (start : String) :
    expectation.judge start [outcome] = ⟨[(outcome.phase, outcome.text)],
      (expectation.mishap? outcome).elim (.ok outcome.text) .error⟩ := by
  rw [judge]
  cases expectation.mishap? outcome <;> rfl

/-- What a phase comes to which succeeds or fails as it should is compared. -/
theorem elim_mishap? {expectation : Expectation}
    (as_expected : outcome.succeeded = !expectation.failsAt outcome.phase) :
    (expectation.mishap? outcome).elim (.ok outcome.text) .error =
      compared (expectation.textAt outcome.phase) outcome.text := by
  rw [mishap?, as_expected]
  cases expectation.failsAt outcome.phase <;> cases expectation.textAt outcome.phase with
  | none => rfl
  | some expected => by_cases equal : outcome.text = expected <;> simp [compared, equal]

/-- What a phase comes to which succeeds before the last one is not compared. -/
theorem mishap?_of_succeeded (text : Option String) (succeeded : outcome.succeeded = true)
    (not_last : outcome.phase ≠ .rebuild) : mishap? ⟨failure, text⟩ outcome =
      if failure = some outcome.phase.name then some (.expectedFailure outcome.text) else none := by
  by_cases fails : failure = some outcome.phase.name
  · simp [mishap?, failsAt, succeeded, fails]
  · simp [mishap?, failsAt, textAt, succeeded, fails, not_last]

/-- Whether the expected text only matters for a comparison at the end of a run. -/
def ComparesLast (report : Option String → Report) : Prop :=
  ∃ phases, (∃ verdict, ¬IsMismatch verdict ∧ ∀ text, report text = ⟨phases, verdict⟩) ∨
    ∃ actual, ∀ text, report text = ⟨phases, compared text actual⟩

/-- A report on a mismatch tells what the text is that is compared. -/
theorem ComparesLast.exists_phases {report : Option String → Report} (compares : ComparesLast report)
    {text : Option String} {expected actual : String}
    (verdict_eq : (report text).verdict = .error (.mismatch expected actual)) :
    ∃ phases, report text = ⟨phases, .error (.mismatch expected actual)⟩ ∧
      ∀ other, report other = ⟨phases, compared other actual⟩ := by
  obtain ⟨phases, ⟨verdict, no_mismatch, report_eq⟩ | ⟨final, report_eq⟩⟩ := compares
  · rw [report_eq] at verdict_eq
    exact absurd ⟨expected, actual, verdict_eq⟩ no_mismatch
  · rw [report_eq] at verdict_eq
    have final_eq : final = actual := by
      cases text with
      | none => cases verdict_eq
      | some other =>
        rw [compared] at verdict_eq
        split at verdict_eq <;> cases verdict_eq
        rfl
    rw [final_eq] at report_eq verdict_eq
    exact ⟨phases, (report_eq text).trans (congrArg _ verdict_eq), report_eq⟩

theorem comparesLast_judge_singleton (failure : Option String) (start : String) (last : Outcome) :
    ComparesLast fun text => judge ⟨failure, text⟩ start [last] := by
  refine ⟨[(last.phase, last.text)], ?_⟩
  simp only [judge_singleton, Report.mk.injEq, true_and]
  by_cases as_expected : last.succeeded = !(failure == some last.phase.name)
  · have verdict_eq (text : Option String) := @elim_mishap? last ⟨failure, text⟩ as_expected
    by_cases compares : (failure == some last.phase.name ||
        failure.isNone && last.phase == .rebuild) = true
    · refine .inr ⟨last.text, fun text => ?_⟩
      have textAt_eq : textAt ⟨failure, text⟩ last.phase = text := if_pos compares
      rw [verdict_eq, textAt_eq]
    · refine .inl ⟨.ok last.text, by simp [IsMismatch], fun text => ?_⟩
      have textAt_eq : textAt ⟨failure, text⟩ last.phase = none := if_neg compares
      rw [verdict_eq, textAt_eq, compared]
  · left
    cases succeeded : last.succeeded with
    | true =>
      refine ⟨.error (.expectedFailure last.text), by simp [IsMismatch], fun text => ?_⟩
      have fails : (failure == some last.phase.name) = true := by simpa [succeeded] using as_expected
      simp only [mishap?, failsAt, succeeded, fails, Option.elim_some]
    | false =>
      refine ⟨.error (.expectedSuccess last.text), by simp [IsMismatch], fun text => ?_⟩
      have fails : (failure == some last.phase.name) = false := by simpa [succeeded] using as_expected
      simp only [mishap?, failsAt, succeeded, fails, Option.elim_some]

theorem comparesLast_judge (start : String)
    (quiet : ∀ outcome ∈ before, outcome.succeeded = true ∧ outcome.phase ≠ .rebuild) :
    ComparesLast fun text => judge ⟨failure, text⟩ start (before ++ [last]) := by
  induction before generalizing start with
  | nil => exact comparesLast_judge_singleton failure start last
  | cons outcome before ih =>
    obtain ⟨⟨succeeded, not_last⟩, quiet⟩ := List.forall_mem_cons.mp quiet
    simp only [List.cons_append, judge, mishap?_of_succeeded _ succeeded not_last]
    by_cases fails : failure = some outcome.phase.name
    · -- the run stops here, before anything is compared
      simp only [if_pos fails]
      exact ⟨_, .inl ⟨.error (.expectedFailure outcome.text), by simp [IsMismatch], fun _ => rfl⟩⟩
    · simp only [if_neg fails]
      obtain ⟨phases, report_eq⟩ := ih outcome.text quiet
      refine ⟨(outcome.phase, outcome.text) :: phases, ?_⟩
      rcases report_eq with ⟨verdict, no_mismatch, report_eq⟩ | ⟨actual, report_eq⟩
      · exact .inl ⟨verdict, no_mismatch, fun text => by simp only [report_eq text]⟩
      · exact .inr ⟨actual, fun text => by simp only [report_eq text]⟩

end Expectation

namespace Case

theorem comparesLast_run (failure : Option String) (text : String) :
    Expectation.ComparesLast fun expected => run ⟨failure, expected⟩ text := by
  have runs := runs_outcomes text
  obtain ⟨before, last, outcomes_eq, -⟩ := runs.exists_last nofun
  rw [outcomes_eq] at runs
  simp only [run, outcomes_eq]
  exact Expectation.comparesLast_judge text fun outcome mem =>
    ⟨runs.before_succeeded outcome mem, (runs.before_phase_ne mem).2⟩

end Case

namespace Table

variable {α β : Type}

theorem insert_of_get? {table : Table α} {name : String} {value : α}
    (get?_eq : table.get? name = some value) : table.insert name value = table := by
  refine ext fun other => ?_
  rw [get?_insert]
  split
  · next same => rw [same, get?_eq]
  · rfl

/-- An entry which is not used does not matter. -/
theorem filterMap_insertInto {use : String × α → Option β} {name : String}
    (unused : ∀ value, use (name, value) = none) (value : α) (list : List (String × α)) :
    (insertInto name value list).filterMap use = list.filterMap use := by
  induction list with
  | nil => simp [insertInto, unused]
  | cons head tail ih =>
    obtain ⟨key, old⟩ := head
    rw [insertInto]
    split
    · simp [unused]
    · next name_eq =>
      obtain rfl : name = key := Std.LawfulEqCmp.eq_of_compare name_eq
      simp [unused]
    · simp [List.filterMap_cons, ih]

theorem mem_of_get?_ofList {list : List (String × α)} {name : String} {value : α}
    (get?_eq : (ofList list).get? name = some value) : (name, value) ∈ list := by
  refine List.foldlRecOn
    (motive := fun table : Table α => table.get? name = some value → (name, value) ∈ list)
    list _ (fun found => by cases found) (fun table members entry mem get?_eq => ?_) get?_eq
  rw [get?_insert] at get?_eq
  split at get?_eq
  · next same =>
    cases get?_eq
    rwa [same]
  · exact members get?_eq

end Table

namespace Suite

theorem expectedFile_injective : Function.Injective expectedFile := fun _ _ files_eq =>
  String.toList_inj.mp (by simpa [expectedFile] using congrArg String.toList files_eq)

/-- A file with an expected text is no case. -/
theorem caseName?_expectedFile (caseName : String) : caseName? (expectedFile caseName) = none := by
  have chars_eq : (expectedFile caseName).toList = caseName.toList ++ ".expected".toList :=
    String.toList_append
  have length_eq : (expectedFile caseName).toList.length - 5 = caseName.toList.length + 4 := by
    rw [chars_eq, List.length_append]
    rfl
  have stem : (expectedFile caseName).toList.drop (caseName.toList.length + 4) ≠ ".json".toList := by
    rw [chars_eq, List.drop_length_add_append]
    decide
  rw [caseName?, length_eq, if_neg fun found => stem found.2]

theorem cases_setExpected (suite : Suite) (caseName text : String) :
    (suite.setExpected caseName text).cases = suite.cases := by
  rw [cases, cases, setExpected]
  refine congrArg Table.ofList (Table.filterMap_insertInto (fun value => ?_) _ _)
  exact congrArg (Option.map (·, value)) (caseName?_expectedFile caseName)

end Suite

/-- The text of a case which is not the expected one. -/
def CaseResult.actual? (result : CaseResult) : Option String :=
  match result.report.verdict with
  | .error (.mismatch _ actual) => some actual
  | _ => none

namespace Suite

/-- The suite with the text of a case as what is expected of it, if it mismatches. -/
def settle (suite : Suite) (result : CaseResult) : Suite :=
  match result.actual? with
  | some actual => suite.setExpected result.caseName actual
  | none => suite

theorem updated_eq (result : SuiteResult) :
    result.updated = result.results.foldl settle result.suite := by
  refine congrArg (fun step => result.results.foldl step result.suite) ?_
  funext suite ⟨caseName, phases, verdict⟩
  rcases verdict with mishap | text
  · cases mishap <;> rfl
  · rfl

/-- Whether two suites have the same cases and the same configuration. -/
structure SameCases (suite other : Suite) : Prop where
  name_eq : suite.name = other.name
  description_eq : suite.description = other.description
  failure_eq : suite.failure = other.failure
  cases_eq : suite.cases = other.cases

theorem SameCases.trans {suite middle other : Suite} (first : suite.SameCases middle)
    (last : middle.SameCases other) : suite.SameCases other where
  name_eq := first.name_eq.trans last.name_eq
  description_eq := first.description_eq.trans last.description_eq
  failure_eq := first.failure_eq.trans last.failure_eq
  cases_eq := first.cases_eq.trans last.cases_eq

theorem sameCases_settle (suite : Suite) (result : CaseResult) :
    (suite.settle result).SameCases suite := by
  rw [settle]
  split
  · exact ⟨rfl, rfl, rfl, cases_setExpected ..⟩
  · exact ⟨rfl, rfl, rfl, rfl⟩

theorem sameCases_updated (suite : Suite) (search : String) :
    (suite.run search).updated.SameCases suite := by
  rw [updated_eq]
  exact List.foldlRecOn (motive := (SameCases · suite)) _ _ ⟨rfl, rfl, rfl, rfl⟩
    fun _ same _ _ => (sameCases_settle ..).trans same

theorem get?_settle (suite : Suite) (result : CaseResult) (caseName : String) :
    (suite.settle result).files.get? (expectedFile caseName) =
      if caseName = result.caseName then
        (result.actual?.map (· ++ "\n")).or (suite.files.get? (expectedFile caseName))
      else suite.files.get? (expectedFile caseName) := by
  cases actual_eq : result.actual? with
  | none => simp [settle, actual_eq]
  | some actual => simp [settle, actual_eq, setExpected, expectedFile_injective.eq_iff]

theorem get?_foldl_settle_of_not_mem {suite : Suite} {results : List CaseResult} {caseName : String}
    (other : ∀ result ∈ results, result.caseName ≠ caseName) :
    (results.foldl settle suite).files.get? (expectedFile caseName) =
      suite.files.get? (expectedFile caseName) := by
  induction results generalizing suite with
  | nil => rfl
  | cons result results ih =>
    obtain ⟨distinct, other⟩ := List.forall_mem_cons.mp other
    rw [List.foldl_cons, ih other, get?_settle, if_neg (Ne.symm distinct)]

theorem get?_foldl_settle {suite : Suite} {results : List CaseResult}
    (distinct : results.Pairwise fun left right => left.caseName ≠ right.caseName)
    {result : CaseResult} (mem : result ∈ results) :
    (results.foldl settle suite).files.get? (expectedFile result.caseName) =
      (result.actual?.map (· ++ "\n")).or
        (suite.files.get? (expectedFile result.caseName)) := by
  induction results generalizing suite with
  | nil => cases mem
  | cons head results ih =>
    obtain ⟨head_distinct, distinct⟩ := List.pairwise_cons.mp distinct
    rcases List.mem_cons.mp mem with rfl | mem
    · rw [List.foldl_cons, get?_foldl_settle_of_not_mem fun other other_mem =>
        (head_distinct other other_mem).symm, get?_settle, if_pos rfl]
    · rw [List.foldl_cons, ih distinct mem, get?_settle, if_neg (head_distinct result mem).symm]

theorem results_distinct (suite : Suite) (search : String) :
    (suite.run search).results.Pairwise fun left right => left.caseName ≠ right.caseName := by
  refine List.pairwise_map.mpr ((suite.cases.increasing.filter _).imp fun {left right} less same => ?_)
  have names_eq : left.1 = right.1 := same
  simp [names_eq] at less

/-- What becomes of the result of a case once the texts of mismatching cases are written down: a
mismatch becomes a success, unless the text ends with white space, which is not read again. -/
inductive Settles : CaseResult → CaseResult → Prop where
  | settled (caseName : String) (phases : List (Phase × String)) (expected : String)
    {actual : String} (trimmed : Text.trimEnd actual = actual) :
    Settles ⟨caseName, phases, .error (.mismatch expected actual)⟩ ⟨caseName, phases, .ok actual⟩
  | stuck (caseName : String) (phases : List (Phase × String)) (expected : String)
    {actual : String} (blank : Text.trimEnd actual ≠ actual) :
    Settles ⟨caseName, phases, .error (.mismatch expected actual)⟩
      ⟨caseName, phases, .error (.mismatch (Text.trimEnd actual) actual)⟩
  | kept {result : CaseResult} (no_mismatch : ¬Expectation.IsMismatch result.report.verdict) :
    Settles result result

theorem actual?_eq_some_iff {result : CaseResult} {actual : String} :
    result.actual? = some actual ↔
      ∃ expected, result.report.verdict = .error (.mismatch expected actual) := by
  obtain ⟨caseName, phases, verdict⟩ := result
  rcases verdict with mishap | text
  · cases mishap <;> simp [CaseResult.actual?]
  · simp [CaseResult.actual?]

theorem actual?_eq_none_iff {result : CaseResult} :
    result.actual? = none ↔ ¬Expectation.IsMismatch result.report.verdict := by
  rw [Option.eq_none_iff_forall_ne_some, Expectation.IsMismatch, exists_comm, not_exists]
  exact forall_congr' fun actual => not_congr actual?_eq_some_iff

theorem Settles.actual?_eq {before after : CaseResult} (settles : Settles before after)
    {actual : String} (actual_eq : after.actual? = some actual) : before.actual? = some actual := by
  cases settles with
  | settled => cases actual_eq
  | stuck => exact actual_eq
  | kept no_mismatch => exact actual_eq

theorem Settles.verdict_of_blank {before after : CaseResult} (settles : Settles before after)
    {expected actual : String} (verdict_eq : before.report.verdict = .error (.mismatch expected actual))
    (blank : Text.trimEnd actual ≠ actual) :
    after.report.verdict = .error (.mismatch (Text.trimEnd actual) actual) := by
  cases settles with
  | settled _ _ _ trimmed =>
    cases verdict_eq
    exact absurd trimmed blank
  | stuck =>
    cases verdict_eq
    rfl
  | kept no_mismatch => exact absurd ⟨expected, actual, verdict_eq⟩ no_mismatch

theorem settles_report {suite after : Suite} {caseName text : String}
    (failure_eq : after.failure = suite.failure)
    (get?_eq : after.files.get? (expectedFile caseName) =
      ((CaseResult.mk caseName (suite.report caseName text)).actual?.map (· ++ "\n")).or
        (suite.files.get? (expectedFile caseName))) :
    Settles ⟨caseName, suite.report caseName text⟩ ⟨caseName, after.report caseName text⟩ := by
  cases actual_eq : (CaseResult.mk caseName (suite.report caseName text)).actual? with
  | none =>
    -- nothing is written down, so that the case is run as before
    rw [actual_eq] at get?_eq
    have report_eq : after.report caseName text = suite.report caseName text := by
      rw [report, report, expectation, expectation, expectedText, expectedText, failure_eq, get?_eq]
      rfl
    rw [report_eq]
    exact .kept (actual?_eq_none_iff.mp actual_eq)
  | some actual =>
    have text_eq : after.expectedText caseName = some (Text.trimEnd actual) := by
      rw [expectedText, get?_eq, actual_eq]
      exact congrArg some (Text.trimEnd_append_newline actual)
    have after_eq : after.report caseName text =
        Case.run ⟨suite.failure, some (Text.trimEnd actual)⟩ text := by
      rw [report, expectation, failure_eq, text_eq]
    obtain ⟨expected, verdict_eq⟩ := actual?_eq_some_iff.mp actual_eq
    obtain ⟨phases, before_eq, report_eq⟩ :=
      (Case.comparesLast_run suite.failure text).exists_phases verdict_eq
    have before_eq : suite.report caseName text =
      ⟨phases, .error (.mismatch expected actual)⟩ := before_eq
    rw [before_eq, after_eq.trans (report_eq _), Expectation.compared]
    split
    · next trimmed => exact .settled caseName phases expected trimmed.symm
    · next blank => exact .stuck caseName phases expected (Ne.symm blank)

theorem run_updated_get? (suite : Suite) (search : String) {result : CaseResult}
    (mem : result ∈ (suite.run search).results) :
    (suite.run search).updated.files.get? (expectedFile result.caseName) =
      (result.actual?.map (· ++ "\n")).or (suite.files.get? (expectedFile result.caseName)) := by
  rw [updated_eq]
  exact get?_foldl_settle (results_distinct suite search) mem

theorem results_run_of_sameCases {suite after : Suite} (same : after.SameCases suite)
    (search : String) : (after.run search).results =
      (suite.cases.entries.filter fun (caseName, _) => selects search (suite.key caseName)).map
        fun (caseName, text) => { caseName, report := after.report caseName text } := by
  rw [run]
  simp only [key, same.cases_eq, same.name_eq]

/-- Another run of the same cases finds the mismatches settled. -/
theorem forall₂_settles (suite : Suite) (search : String) :
    List.Forall₂ Settles (suite.run search).results
      ((suite.run search).updated.run search).results := by
  have same := sameCases_updated suite search
  rw [results_run_of_sameCases same, run, List.forall₂_map_left_iff, List.forall₂_map_right_iff,
    List.forall₂_same]
  exact fun entry mem =>
    settles_report same.failure_eq (run_updated_get? suite search (List.mem_map_of_mem mem))

theorem exists_settles {suite : Suite} {search : String} {result : CaseResult}
    (mem : result ∈ ((suite.run search).updated.run search).results) :
    ∃ before ∈ (suite.run search).results, before.caseName = result.caseName ∧
      Settles before result := by
  have same := sameCases_updated suite search
  rw [results_run_of_sameCases same] at mem
  obtain ⟨entry, entry_mem, rfl⟩ := List.mem_map.mp mem
  have before_mem : CaseResult.mk entry.1 (suite.report entry.1 entry.2) ∈
      (suite.run search).results := List.mem_map_of_mem entry_mem
  have settles := settles_report same.failure_eq (run_updated_get? suite search before_mem)
  exact ⟨_, before_mem, rfl, settles⟩

/-- Another update writes what is written already. -/
theorem updated_run_updated (suite : Suite) (search : String) :
    ((suite.run search).updated.run search).updated = (suite.run search).updated := by
  rw [updated_eq ((suite.run search).updated.run search)]
  refine List.foldlRecOn (motive := fun after => after = (suite.run search).updated) _ _ rfl ?_
  rintro _ rfl result mem
  rw [settle]
  cases actual_eq : result.actual? with
  | none => rfl
  | some actual =>
    obtain ⟨before, before_mem, name_eq, settles⟩ := exists_settles mem
    have get?_eq := run_updated_get? suite search before_mem
    rw [settles.actual?_eq actual_eq, name_eq] at get?_eq
    exact congrArg (fun files => { (suite.run search).updated with files })
      (Table.insert_of_get? get?_eq)

end Suite

namespace Suites

theorem values_ofList {list : List Suite}
    (increasing : list.Pairwise fun left right => compare left.name right.name = .lt) :
    (ofList list).values = list := by
  let table : Table Suite :=
    ⟨list.map fun suite => (suite.name, suite), List.pairwise_map.mpr increasing⟩
  have table_eq : ofList list = table := Table.ofList_entries table
  rw [table_eq, Table.values, List.map_map]
  exact List.map_id list

theorem values_increasing (list : List Suite) :
    (ofList list).values.Pairwise fun left right => compare left.name right.name = .lt := by
  have name_eq : ∀ entry ∈ (ofList list).entries, entry.2.name = entry.1 := by
    rintro ⟨name, suite⟩ mem
    obtain ⟨_, -, entry_eq⟩ :=
      List.mem_map.mp (Table.mem_of_get?_ofList (Table.get?_eq_some_iff.mpr mem))
    cases entry_eq
    rfl
  refine List.pairwise_map.mpr ((ofList list).increasing.imp_of_mem fun left_mem right_mem less => ?_)
  rwa [name_eq _ left_mem, name_eq _ right_mem]

/-- The updated suites are those which were run, each of them updated. -/
theorem values_updated (list : List Suite) (search : String) :
    ((ofList list).run search).updated.values =
      (ofList list).values.map fun suite => (suite.run search).updated := by
  rw [RunResult.updated, run, List.map_map]
  refine values_ofList (List.pairwise_map.mpr ((values_increasing list).imp fun less => ?_))
  rwa [Function.comp_apply, Function.comp_apply, (Suite.sameCases_updated ..).name_eq,
    (Suite.sameCases_updated ..).name_eq]

/-- The same cases of the updated suites are run. -/
theorem results_run_updated (list : List Suite) (search : String) :
    (((ofList list).run search).updated.run search).results =
      (ofList list).values.map fun suite => (suite.run search).updated.run search := by
  rw [run, values_updated, List.map_map]
  rfl

/-- Once the texts of mismatching cases are written down, another run of the same cases finds all
mismatches settled, except for texts which end with white space, and all other results are kept.
Another update changes nothing. -/
theorem run_updated_settles (list : List Suite) (search : String) :
    let first := (ofList list).run search
    let second := first.updated.run search
    List.Forall₂ (fun before after => after.suite.SameCases before.suite ∧
      List.Forall₂ Suite.Settles before.results after.results) first.results second.results ∧
    second.updated = first.updated := by
  intro first second
  have first_eq : first.results = (ofList list).values.map (·.run search) := rfl
  have second_eq : second.results =
      (ofList list).values.map fun suite => (suite.run search).updated.run search :=
    results_run_updated list search
  constructor
  · rw [first_eq, second_eq, List.forall₂_map_left_iff, List.forall₂_map_right_iff, List.forall₂_same]
    exact fun suite _ => ⟨suite.sameCases_updated search, suite.forall₂_settles search⟩
  · rw [RunResult.updated, RunResult.updated, first_eq, second_eq, List.map_map, List.map_map]
    exact congrArg ofList (List.map_congr_left fun suite _ => suite.updated_run_updated search)

/-- A nonterminal whose name ends with a blank. -/
def blank : Reified := ⟨.sort "A ", ∅⟩

def blank.text : String :=
  "\x7b\"type\":\x7b\"symbol\":\x7b\"sort\":\x7b\"name\":\"A \"\x7d\x7d," ++
    "\"definitions\":\x7b\x7d\x7d\x7d"

theorem blank.parse_eq : Value.parse? blank.text = some (.type blank) := by
  refine Value.parse?_eq_of_bind ?_
  rw [Value.parse?, Json.parse?]
  delta blank.text
  rw [String.toList_append, String.toList_ofList, String.toList_ofList]
  decide +kernel

/-- A suite with a case for which just what it comes to is written down. -/
def blanks : Suite where
  name := "s"
  files := ⟨[("a.expected", "A \n"), ("a.json", blank.text)], by decide⟩

theorem blanks.results_eq :
    (blanks.run selectAll).results = [⟨"a", blanks.report "a" blank.text⟩] := rfl

theorem blanks.verdict_eq :
    (blanks.report "a" blank.text).verdict = .error (.mismatch "A" "A ") := by
  have expectation_eq : blanks.expectation "a" = ⟨none, some "A"⟩ := by decide +kernel
  rw [Suite.report, expectation_eq, Case.run, Case.outcomes, blank.parse_eq]
  decide +kernel

/-- The case still mismatches after its text has been written down. -/
theorem blanks_mismatch :
    (blanks.report "a" blank.text).verdict = .error (.mismatch "A" "A ") ∧
    ¬∀ list search,
      let first := (ofList list).run search
      let second := first.updated.run search
      List.Forall₂ (fun before after => List.Forall₂ (fun result other =>
        Expectation.IsMismatch result.report.verdict → other.isFailure = false)
          before.results after.results) first.results second.results := by
  refine ⟨blanks.verdict_eq, fun settled => ?_⟩
  have values_eq : (ofList [blanks]).values = [blanks] := values_ofList (List.pairwise_singleton ..)
  have settled := settled [blanks] selectAll
  simp only [results_run_updated] at settled
  rw [run, values_eq, List.forall₂_map_left_iff, List.forall₂_map_right_iff, List.forall₂_same]
    at settled
  have settles := blanks.forall₂_settles selectAll
  have succeeds := settled blanks (List.mem_singleton_self _)
  generalize ((blanks.run selectAll).updated.run selectAll).results = results at settles succeeds
  rw [blanks.results_eq] at settles succeeds
  cases succeeds with
  | cons succeeds _ =>
    cases settles with
    | cons settles _ =>
      have verdict_eq := settles.verdict_of_blank blanks.verdict_eq (by decide +kernel)
      have succeeds := succeeds ⟨_, _, blanks.verdict_eq⟩
      rw [CaseResult.isFailure, verdict_eq] at succeeds
      cases succeeds

end Suites

end Reification
