import Reification.Suite.Phase

/-!
# Reports on cases

A case is expected to succeed, or to fail in a given phase.  What it comes to at the phase where it
stops is compared with the expected text, if there is one.  The first phase whose outcome is not
expected ends the case.
-/

namespace Reification

/-- What is expected of a case. -/
structure Expectation where
  /-- The name of the phase which is supposed to fail; without one, all should succeed. -/
  failure : Option String := none
  /-- The text which the case should come to. -/
  text : Option String := none
  deriving DecidableEq, Inhabited, Repr

/-- Why a case is not as expected. -/
inductive Mishap where
  | mismatch (expected actual : String)
  | expectedFailure (got : String)
  | expectedSuccess (got : String)
  deriving DecidableEq, Repr

/-- The text of a mishap. -/
def Mishap.message : Mishap → String
  | mismatch expected actual => "\n  Expected : " ++ expected ++ "\n  Got      : " ++ actual
  | expectedFailure got => "Expected failure, got " ++ got
  | expectedSuccess got => "Expected success, got " ++ got

/-- What a case has come to: a text if all was as expected. -/
abbrev Verdict := Except Mishap String

/-- The phases of a case which were run, with their texts, and the verdict on it. -/
structure Report where
  phases : List (Phase × String)
  verdict : Verdict

namespace Expectation

/-- Whether a phase is supposed to fail. -/
def failsAt (expectation : Expectation) (phase : Phase) : Bool :=
  expectation.failure == some phase.name

/-- The text which is expected of a phase: only the one at which the case stops is compared. -/
def textAt (expectation : Expectation) (phase : Phase) : Option String :=
  if expectation.failsAt phase || (expectation.failure.isNone && phase == .rebuild) then
    expectation.text
  else none

/-- What is not as expected of an outcome. -/
def mishap? (expectation : Expectation) (outcome : Outcome) : Option Mishap :=
  match outcome.succeeded, expectation.failsAt outcome.phase with
  | true, true => some (.expectedFailure outcome.text)
  | false, false => some (.expectedSuccess outcome.text)
  | _, _ =>
    match expectation.textAt outcome.phase with
    | some expected =>
      if outcome.text = expected then none else some (.mismatch expected outcome.text)
    | none => none

/-- The report on some outcomes, where `text` is what the case has come to before them. -/
def judge (expectation : Expectation) (text : String) : List Outcome → Report
  | [] => { phases := [], verdict := .ok text }
  | outcome :: outcomes =>
    match expectation.mishap? outcome with
    | some mishap =>
      { phases := [(outcome.phase, outcome.text)], verdict := .error mishap }
    | none =>
      let report := expectation.judge outcome.text outcomes
      { report with phases := (outcome.phase, outcome.text) :: report.phases }

end Expectation

/-- Runs a case, given by its text. -/
def Case.run (expectation : Expectation) (text : String) : Report :=
  expectation.judge text (Case.outcomes text)

end Reification
