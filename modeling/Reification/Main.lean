import Reification.Json.Printer
import Reification.Json.Reader
import Reification.Suite.Document
import Reification.Suite.Summary

/-!
# The suite runner

The program reads suites as a document from standard input, runs them and prints a summary.  It ends
with the status one if a case was not as expected.
-/

namespace Reification

/-- What the program is asked for. -/
structure Options where
  /-- The search text which selects the cases to be run. -/
  search : String := selectAll
  /-- Print the texts of all phases, too. -/
  debug : Bool := false
  /-- Print the suites with updated expectations instead of the summary. -/
  update : Bool := false

/-- The options of some arguments. -/
def Options.ofArguments? (options : Options) : List String → Option Options
  | [] => some options
  | "--filter" :: search :: arguments => Options.ofArguments? { options with search } arguments
  | "--debug" :: arguments => Options.ofArguments? { options with debug := true } arguments
  | "--update-expected" :: arguments =>
    Options.ofArguments? { options with update := true } arguments
  | _ :: _ => none

/-- The output of a run. -/
def Options.outputLines (options : Options) (result : RunResult) : List String :=
  (if options.debug then result.results.flatMap SuiteResult.phaseLines else []) ++
    if options.update then [result.updated.toJson.pretty] else result.summaryLines

end Reification

open Reification

/-- Runs the suites on standard input. -/
def main (arguments : List String) : IO UInt32 := do
  let some options := Options.ofArguments? {} arguments
    | IO.eprintln "Usage: [--filter TEXT] [--debug] [--update-expected]"
      return 2
  let text ← (← IO.getStdin).readToEnd
  let some suites := (Json.parse? text).bind Suites.ofJson?
    | IO.eprintln "Standard input holds no suites"
      return 2
  let result := suites.run options.search
  for line in options.outputLines result do
    IO.println line
  return if result.isSuccess then 0 else 1
