import Reification.Suite.Run

/-!
# The text of a run

A run is summed up suite by suite: each case which was not as expected is listed, and cases are
counted.
-/

namespace Reification

/-- How many of some cases were as expected. -/
def successRate (cases failures : Nat) : String :=
  toString (cases - failures) ++ "/" ++ toString cases ++ " successful"

/-- The texts of all phases of a case. -/
def Report.phaseLines (report : Report) : List String :=
  report.phases.flatMap fun (phase, text) => ["phase " ++ phase.name ++ ":", "", text, ""]

/-- The phases of all cases of a suite. -/
def SuiteResult.phaseLines (result : SuiteResult) : List String :=
  result.results.flatMap fun caseResult =>
    ("Case " ++ result.suite.key caseResult.caseName ++ ":") :: caseResult.report.phaseLines

/-- The line of a case which was not as expected. -/
def CaseResult.failureLine? (result : CaseResult) : Option String :=
  match result.report.verdict with
  | .ok _ => none
  | .error mishap => some (result.caseName ++ ": " ++ mishap.message)

/-- The lines of a suite. -/
def SuiteResult.summaryLines (result : SuiteResult) : List String :=
  ("Suite \"" ++ result.suite.name ++ "\": " ++ result.suite.description) ::
    result.results.filterMap CaseResult.failureLine? ++
    [successRate result.caseCount result.failureCount, ""]

/-- The lines of a run. -/
def RunResult.summaryLines (result : RunResult) : List String :=
  result.results.flatMap SuiteResult.summaryLines ++
    ["In total: " ++ successRate result.caseCount result.failureCount]

end Reification
