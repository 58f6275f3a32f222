import Reification.Spelling
import Reification.OrderedSet
import Reification.Table
import Reification.Primitive
import Reification.Symbol
import Reification.Production
import Reification.Definitions
import Reification.Value
import Reification.Json.Reader
import Reification.Json.Printer
import Reification.Wire.Symbol
import Reification.Wire.Value
import Reification.Description
import Reification.Ty.Display
import Reification.Ty.Same
import Reification.Ty.Instantiate
import Reification.Reify
import Reification.Reconstruct
import Reification.Ty.References
import Reification.Reconstruct.ConstructorType
import Reification.Suite.Run
import Reification.Main
import Reification.Proofs.Building
import Reification.Proofs.Composition
import Reification.Proofs.Conflict
import Reification.Proofs.Described
import Reification.Proofs.Expansion
import Reification.Proofs.FixedPoint
import Reification.Proofs.Leaves
import Reification.Proofs.RoundTrip
import Reification.Proofs.Parts
import Reification.Proofs.Tidy
import Reification.Proofs.Upkeep
import Reification.Proofs.Tidying
import Reification.Proofs.Declaring
import Reification.Proofs.Occurrences
import Reification.Proofs.Insertions
import Reification.Proofs.Termination
import Reification.Proofs.Account
import Reification.Proofs.Population
import Reification.Proofs.Recurrence
import Reification.Proofs.Restorable
import Reification.Proofs.Reconstructed
import Reification.Proofs.Restoration
import Reification.Proofs.Restored
import Reification.Proofs.SelfContained
import Reification.Proofs.Reading
import Reification.Proofs.Wire
import Reification.Proofs.Agreement
import Reification.Proofs.Undeclared
import Reification.Proofs.Confinement
import Reification.Proofs.Reifiable
import Reification.Proofs.Replay
import Reification.Proofs.Continuation
import Reification.Proofs.Retracing
import Reification.Proofs.Idempotence
import Reification.Proofs.Layers
import Reification.Proofs.Sessions
import Reification.Proofs.Grouping
import Reification.Proofs.Preservation
import Reification.Proofs.Identity
import Reification.Proofs.Sharing
import Reification.Proofs.Histories
import Reification.Proofs.Belonging
import Reification.Proofs.Layouts
import Reification.Proofs.Isolation
import Reification.Proofs.Substitution
import Reification.Proofs.Stranded
import Reification.Proofs.Tracing
import Reification.Proofs.Unreached
import Reification.Proofs.Rearrangement
import Reification.Proofs.Settling
