import Ownership.Program
import Ownership.Proofs.SingleOwner
import Ownership.Proofs.Soundness.Fragment
import Ownership.Proofs.Extensions
import Ownership.Proofs.Forest
import Ownership.Proofs.PlaceText
import Ownership.Proofs.Worklists
import Ownership.Proofs.Strategies
import Ownership.Proofs.Checking.Lends
import Ownership.Proofs.Checking.Writes
import Ownership.Proofs.Checking.Shapes
import Ownership.Proofs.Checking.Scopes
import Ownership.Proofs.Checking.Sites
import Ownership.Proofs.Checking.Stable
import Ownership.Proofs.Checking.Uniqueness
import Ownership.Proofs.Checking.Apart
import Ownership.Proofs.Checking.Recorded
import Ownership.Proofs.Checking.Available
import Ownership.Proofs.Checking.Errors
import Ownership.Proofs.Checking.Acyclic
import Ownership.Proofs.Checking.Knots
import Ownership.Proofs.Checking.Referents
import Ownership.Proofs.Checking.Bindings
import Ownership.Proofs.Checking.Declarations
import Ownership.Proofs.Checking.Outlives
import Ownership.Proofs.Checking.Temporaries
import Ownership.Proofs.Checking.CopyInference
import Ownership.Proofs.Checking.NameOrder
import Ownership.Proofs.ScopeFaults
import Ownership.Proofs.Frames
import Ownership.Proofs.Addresses
import Ownership.Proofs.Termination
import Ownership.Proofs.ScopedCells
import Ownership.Proofs.Changes
import Ownership.Proofs.Invariants
import Ownership.Proofs.Drops
import Ownership.Proofs.Separation
import Ownership.Proofs.Checking.Isolation
import Ownership.Proofs.Checking.Additions
import Ownership.Proofs.Checking.Incompatible
import Ownership.Proofs.Checking.Joins
import Ownership.Proofs.Checking.SelfJoins
import Ownership.Proofs.Checking.LeastUpperBounds
import Ownership.Proofs.HeapChecks
import Ownership.Proofs.Locations
import Ownership.Proofs.Checking.Shared
import Ownership.Proofs.Checking.Lifted
import Ownership.Proofs.Checking.Carrying
