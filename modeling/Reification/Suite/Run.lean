import Reification.Suite

/-!
# Runs of suites

Suites are run in the order of their names, and their cases in the order of theirs.  A search text
selects the cases whose keys contain it.
-/

namespace Reification

/-- Suites under their names. -/
abbrev Suites := Table Suite

/-- The suites of a list, of which the last one of a name counts. -/
def Suites.ofList (list : List Suite) : Suites :=
  Table.ofList (list.map fun suite => (suite.name, suite))

/-- The search text which selects every case. -/
def selectAll : String := "*"

/-- Whether a search text selects a key. -/
def selects (search key : String) : Bool :=
  search == selectAll || Text.occursIn search.toList key.toList

/-- The result of one case. -/
structure CaseResult where
  caseName : String
  report : Report

/-- Whether a case was not as expected. -/
def CaseResult.isFailure (result : CaseResult) : Bool :=
  match result.report.verdict with
  | .ok _ => false
  | .error _ => true

/-- The results of the selected cases of a suite. -/
structure SuiteResult where
  suite : Suite
  results : List CaseResult

namespace SuiteResult

/-- The number of cases which were run. -/
def caseCount (result : SuiteResult) : Nat := result.results.length

/-- The number of cases which were not as expected. -/
def failureCount (result : SuiteResult) : Nat := result.results.countP (·.isFailure)

/-- The suite with the texts of mismatching cases as what is expected of them. -/
def updated (result : SuiteResult) : Suite :=
  result.results.foldl
    (fun suite caseResult =>
      match caseResult.report.verdict with
      | .error (.mismatch _ actual) => suite.setExpected caseResult.caseName actual
      | _ => suite)
    result.suite

end SuiteResult

/-- Runs the selected cases of a suite. -/
def Suite.run (suite : Suite) (search : String) : SuiteResult where
  suite := suite
  results := (suite.cases.entries.filter fun (caseName, _) =>
    selects search (suite.key caseName)).map fun (caseName, text) =>
      { caseName, report := suite.report caseName text }

/-- The results of a run of suites. -/
structure RunResult where
  results : List SuiteResult

namespace RunResult

/-- The number of cases which were run. -/
def caseCount (result : RunResult) : Nat := (result.results.flatMap (·.results)).length

/-- The number of cases which were not as expected. -/
def failureCount (result : RunResult) : Nat :=
  (result.results.flatMap (·.results)).countP (·.isFailure)

/-- Whether all cases were as expected. -/
def isSuccess (result : RunResult) : Bool := result.failureCount == 0

/-- The suites with the texts of mismatching cases as what is expected of them. -/
def updated (result : RunResult) : Suites := Suites.ofList (result.results.map (·.updated))

end RunResult

/-- Runs the selected cases of some suites. -/
def Suites.run (suites : Suites) (search : String) : RunResult where
  results := suites.values.map (·.run search)

end Reification
