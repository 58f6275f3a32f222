import Reification.Suite.Run
import Reification.Wire.Record

/-!
# Suites as documents

Suites are given as an array of records, each with a name, an optional configuration and the files.
-/

namespace Reification

/-- The configuration of a suite: what its cases are about and where they are supposed to fail. -/
def Suite.configOfJson? : Json → Option (String × Option String)
  | .null => some ("", none)
  | json => do
    let [some description, failure] ← json.fields? ["description", "fail"] | none
    let failure ← match failure with
      | none | some .null => some none
      | some failure => failure.text?.map some
    return (← description.text?, failure)

/-- The name and the text of a file. -/
def Suite.fileOfJson? (json : Json) : Option (String × String) := do
  let [some name, some text] ← json.fields? ["name", "text"] | none
  return (← name.text?, ← text.text?)

/-- The suite of a tree. -/
def Suite.ofJson? (json : Json) : Option Suite := do
  let [some name, config, some (.array files)] ← json.fields? ["name", "config", "files"] | none
  let (description, failure) ← configOfJson? (config.getD .null)
  let files ← files.mapM fileOfJson?
  return { name := ← name.text?, description, failure, files := Table.ofList files }

/-- The tree of a suite. -/
def Suite.toJson (suite : Suite) : Json :=
  .record
    [("name", .text suite.name),
      ("config", .record
        [("description", .text suite.description),
          ("fail", (suite.failure.map Json.text).getD .null)]),
      ("files", .array (suite.files.entries.map fun (name, text) =>
        .record [("name", .text name), ("text", .text text)]))]

/-- The suites of a tree. -/
def Suites.ofJson? : Json → Option Suites
  | .array items => (items.mapM Suite.ofJson?).map Suites.ofList
  | _ => none

/-- The tree of some suites. -/
def Suites.toJson (suites : Suites) : Json := .array (suites.values.map Suite.toJson)

end Reification
