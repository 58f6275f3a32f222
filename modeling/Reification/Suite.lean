import Reification.Suite.Report
import Reification.Table
import Reification.Text.Blank

/-!
# Suites of cases

A suite is a folder of files.  Each file `name.json` is a case, and `name.expected` holds the text
which the case is expected to come to.
-/

namespace Reification

/-- A folder of cases. -/
structure Suite where
  name : String
  /-- What the cases are about. -/
  description : String := ""
  /-- The name of the phase in which the cases are supposed to fail, if any. -/
  failure : Option String := none
  /-- The contents of the files. -/
  files : Table String := ∅
  deriving Inhabited

namespace Suite

/-- The name of the case in a file: what comes before `.json`, if that is something. -/
def caseName? (fileName : String) : Option String :=
  let chars := fileName.toList
  let stem := chars.take (chars.length - 5)
  if stem ≠ [] ∧ chars.drop (chars.length - 5) = ".json".toList then some (String.ofList stem)
  else none

/-- The texts of the cases under their names. -/
def cases (suite : Suite) : Table String :=
  Table.ofList (suite.files.entries.filterMap fun (fileName, text) =>
    (caseName? fileName).map (·, text))

/-- The name of the file with the expected text of a case. -/
def expectedFile (caseName : String) : String := caseName ++ ".expected"

/-- The text which a case is expected to come to. -/
def expectedText (suite : Suite) (caseName : String) : Option String :=
  (suite.files.get? (expectedFile caseName)).map Text.trimEnd

/-- Writes down the text which a case is expected to come to. -/
def setExpected (suite : Suite) (caseName text : String) : Suite :=
  { suite with files := suite.files.insert (expectedFile caseName) (text ++ "\n") }

/-- The name by which a case is selected. -/
def key (suite : Suite) (caseName : String) : String := suite.name ++ "/" ++ caseName

/-- What is expected of a case. -/
def expectation (suite : Suite) (caseName : String) : Expectation where
  failure := suite.failure
  text := suite.expectedText caseName

/-- Runs a case of the suite. -/
def report (suite : Suite) (caseName text : String) : Report :=
  Case.run (suite.expectation caseName) text

end Suite

end Reification
