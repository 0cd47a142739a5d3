import Provision.Command.Run
import Provision.History.Document
import Provision.Log.Sink
import Provision.Main
import Provision.Proofs.Capability
import Provision.Proofs.Evr.Bytes
import Provision.Proofs.Goal.Architectures
import Provision.Proofs.Goal.Direction
import Provision.Proofs.Goal.Exclusive
import Provision.Proofs.Goal.Inheritance
import Provision.Proofs.Goal.Leftovers
import Provision.Proofs.Goal.Lowering
import Provision.Proofs.Goal.Orphaned
import Provision.Proofs.Goal.Protection
import Provision.Proofs.History.Chronicle
import Provision.Proofs.History.Refusal
import Provision.Proofs.History.RoundTrip
import Provision.Proofs.Plan.Least
import Provision.Proofs.Plan.Reordering
import Provision.Proofs.Plan.Replacement
import Provision.Proofs.Query.Additions
import Provision.Proofs.Query.Listing
import Provision.Proofs.Session.Numbers
import Provision.Proofs.Session.Saving
import Provision.Proofs.Solver.Conflicts
import Provision.Proofs.Solver.Reached
import Provision.Proofs.Solver.Reasons
import Provision.Proofs.Solver.Recommendations
import Provision.Proofs.Solver.Removal
import Provision.Proofs.Universe
