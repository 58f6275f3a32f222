/-!
# Errors

The causes for which a type cannot be declared, reified or reconstructed, with the texts by which
they are reported.
-/

namespace Reification

/-- The kinds of declarations. -/
inductive DeclarationKind where
  | dataType
  | aliasType
  deriving DecidableEq, Inhabited, Repr

/-- The text of a kind of declarations. -/
def DeclarationKind.display : DeclarationKind → String
  | dataType => "data type"
  | aliasType => "alias"

/-- A violated invariant of the library itself. -/
inductive Fault where
  /-- The slot of an alias was filled a second time. -/
  | filledTwice (name : String)
  /-- The body of a declared alias is missing. -/
  | missingBody (name : String)
  /-- A constructor is missing after it was declared. -/
  | missingConstructor (name owner : String)
  deriving DecidableEq, Repr

/-- The text of a fault. -/
def Fault.message : Fault → String
  | filledTwice name => "The body of alias " ++ name ++ " was set twice"
  | missingBody name => "The body of alias " ++ name ++ " is not known"
  | missingConstructor name owner =>
    "Constructor " ++ name ++ " of " ++ owner ++ " was not declared"

/-- A cause for which an operation on types fails. -/
inductive Error where
  /-- A value of some other kind stands where a reified type is expected. -/
  | notReified (kind : String)
  /-- A name is not declared as what it is used for. -/
  | undeclared (kind : DeclarationKind) (name : String)
  /-- A production describes no constructor of a data type. -/
  | notConstructor (subject : String)
  /-- A name is declared as two different types, given by their texts. -/
  | conflicting (name existing offered : String)
  | fault (cause : Fault)
  deriving DecidableEq, Repr

namespace Error

/-- The text of an error. -/
def message : Error → String
  | notReified kind => "Expected a reified type, got a value of kind " ++ kind
  | undeclared kind name => "The " ++ kind.display ++ " " ++ name ++ " is not declared"
  | notConstructor subject => "No constructor type can be derived for " ++ subject
  | conflicting name existing offered =>
    "Conflicting declarations for " ++ name ++ ": " ++ existing ++ " is declared, got " ++ offered
  | fault cause => "An unexpected internal error occurred: " ++ cause.message

/-- A short code for the kind of an error. -/
def code : Error → String
  | notReified _ => "R-001"
  | undeclared _ _ => "R-002"
  | notConstructor _ => "R-003"
  | conflicting _ _ _ => "D-001"
  | fault _ => "R-XXX"

/-- Advice on an error. -/
def help? : Error → Option String
  | undeclared _ _ =>
    some "A type can only be reified with the registry in which its declarations live."
  | notConstructor _ => some "Only named alternatives of data types are constructors."
  | conflicting _ _ _ =>
    some "Declarations are only ever added by the engine itself, so this is a bug."
  | notReified _ | fault _ => none

end Error

/-- Why an operation has no result. -/
inductive Failure where
  | error (cause : Error)
  /-- The operation does not end. -/
  | endless
  deriving DecidableEq, Repr

/-- The result of a computation which is missing if the computation does not end. -/
def Failure.orEndless {α : Type} : Option α → Except Failure α
  | some result => .ok result
  | none => .error .endless

end Reification
