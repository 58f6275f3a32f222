import Reification.Registry.Display
import Reification.Reify
import Reification.Wire.Value

/-!
# Phases of a case

A case is the text of a value.  It passes through four phases: the text is parsed, the value is
reconstructed into an empty registry, the type is reified with it, and what comes out is rebuilt in
another empty registry and compared with the type.  The run of a case ends with the first phase that
fails.
-/

namespace Reification

/-- The phases in which a case is run, in their order. -/
inductive Phase where
  | parse
  | reconstruct
  | reify
  | rebuild
  deriving DecidableEq, Inhabited, Repr

/-- The name of a phase. -/
def Phase.name : Phase → String
  | parse => "parse"
  | reconstruct => "reconstruct"
  | reify => "reify"
  | rebuild => "rebuild"

/-- The text of a failure. -/
def Failure.message : Failure → String
  | error cause => cause.message
  | endless => "The operation does not end"

/-- What a phase of a case comes to. -/
structure Outcome where
  phase : Phase
  /-- The text of the result if the phase succeeds, and otherwise that of the error. -/
  text : String
  succeeded : Bool
  deriving DecidableEq, Repr

namespace Outcome

/-- The phase has a result with the given text. -/
def ok (phase : Phase) (text : String) : Outcome := { phase, text, succeeded := true }

/-- The phase fails with an error. -/
def failed (phase : Phase) (text : String) : Outcome := { phase, text, succeeded := false }

/-- The phase results in a type in a registry. -/
def ofWorld (phase : Phase) (world : World) (type : Ty) : Outcome :=
  match world.display type with
  | some text => ok phase text
  | none => failed phase Failure.endless.message

end Outcome

namespace Case

/-- Rebuilds a reified type in an empty registry and compares it with the type which was reified. -/
def rebuild (store : Store) (before : Ty) (reified : Reified) : Outcome :=
  match reified.reconstruct.run { store } with
  | (.error failure, _) => .failed .rebuild failure.message
  | (.ok type, world) =>
    match world.store.same type before with
    | some true => .ofWorld .rebuild world type
    | some false =>
      .failed .rebuild
        ("Reconstruction changed the type from " ++ before.display ++ " to " ++ type.display)
    | none => .failed .rebuild Failure.endless.message

/-- Runs the phases from the reification of a type on. -/
def reifyOn (world : World) (type : Ty) : List Outcome :=
  match type.reify { store := world.store, registry := world.registry } with
  | .error failure => [.failed .reify failure.message]
  | .ok reified => [.ok .reify reified.toJson.pretty, rebuild world.store type reified]

/-- Runs the phases from the reconstruction of a value on. -/
def reconstructOn (value : Value) : List Outcome :=
  match value.reconstruct.run {} with
  | (.error failure, _) => [.failed .reconstruct failure.message]
  | (.ok type, world) => .ofWorld .reconstruct world type :: reifyOn world type

/-- Runs all phases up to the first which fails. -/
def outcomes (text : String) : List Outcome :=
  match Value.parse? text with
  | none => [.failed .parse "The text denotes no value"]
  | some value => .ok .parse value.describe :: reconstructOn value

end Case

end Reification
