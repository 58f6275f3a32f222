import Reification.Production
import Reification.Table

/-!
# Definitions

Definitions give the alternatives of names.  A name with an empty choice, of which no alternatives
are known, differs from a name without an entry.
-/

namespace Reification

/-- All alternatives of one subject. -/
structure Choice where
  subject : Symbol
  alternatives : OrderedSet Production := ∅
  deriving DecidableEq, Inhabited

/-- The name under which a choice is kept. -/
def Choice.subject? (choice : Choice) : Option String := choice.subject.subject?

/-- A table from the names of subjects to their choices. -/
abbrev Definitions := Table Choice

namespace Definitions

/-- The choice of a name, created without alternatives for `subject` if there is none yet. -/
def entry (definitions : Definitions) (name : String) (subject : Symbol) : Choice :=
  (definitions.get? name).getD { subject }

/-- Adds alternatives to the entry of a name, which is created if there is none yet. -/
def addAlternatives (definitions : Definitions) (name : String) (subject : Symbol)
    (alternatives : List Production) : Definitions :=
  let choice := definitions.entry name subject
  definitions.insert name
    { choice with alternatives := choice.alternatives.insertAll alternatives }

/-- The alternatives of a name, of which there are none without an entry. -/
def alternativesOf (definitions : Definitions) (name : String) : OrderedSet Production :=
  match definitions.get? name with
  | some choice => choice.alternatives
  | none => ∅

/-- The definitions in which every production is an alternative of the subject it is paired with.
Pairs whose subject has no name are left out. -/
def ofPairs (pairs : List (Symbol × Production)) : Definitions :=
  pairs.foldl
    (fun definitions (subject, production) =>
      match subject.subject? with
      | some name => definitions.addAlternatives name subject [production]
      | none => definitions)
    ∅

end Definitions

end Reification
