import Scoping.Spellings
import Scoping.Interner
import Scoping.ErrorCode
import Scoping.Scope.Action
import Scoping.Scope.Audit
import Scoping.Scope.Event
import Scoping.Scope.InPlace
import Scoping.Scope.Passage
import Scoping.Scope.Trail
import Scoping.Scope.Outline
import Scoping.Scope.Walk
import Scoping.Namespace.Runner
import Scoping.Namespace.Workspace
import Scoping.Namespace.Access
import Scoping.Namespace.Itinerary
import Scoping.Program.Execution
import Scoping.Proofs.Form
import Scoping.Proofs.Settling
import Scoping.Proofs.Reachable
import Scoping.Proofs.Targets
import Scoping.Proofs.Resolution
import Scoping.Proofs.Reference
import Scoping.Proofs.Home
import Scoping.Proofs.Activation
import Scoping.Proofs.Session
import Scoping.Proofs.History
import Scoping.Proofs.Expression
import Scoping.Proofs.Agreement
import Scoping.Proofs.Cells
import Scoping.Proofs.Projection
import Scoping.Proofs.Traversal
import Scoping.Proofs.Nearest
import Scoping.Proofs.Beside
import Scoping.Proofs.Siblings
import Scoping.Proofs.Arena
import Scoping.Proofs.Globals
import Scoping.Proofs.Forward
import Scoping.Proofs.Refusal
import Scoping.Proofs.Late
import Scoping.Proofs.Reach
import Scoping.Proofs.Iteration
import Scoping.Proofs.Visits
import Scoping.Proofs.Absence
import Scoping.Proofs.Assignment
import Scoping.Proofs.Payload
import Scoping.Proofs.Marks
import Scoping.Proofs.Audit
import Scoping.Proofs.Outline
import Scoping.Proofs.Replay
import Scoping.Proofs.Interning
import Scoping.Proofs.Sharing
import Scoping.Proofs.Replacement
import Scoping.Namespace.Descent
import Scoping.Proofs.Descent
import Scoping.Proofs.Routine
import Scoping.Proofs.Itinerary
import Scoping.Proofs.Program
import Scoping.Proofs.Execution
