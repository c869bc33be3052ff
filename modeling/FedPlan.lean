import FedPlan.Aggregation
import FedPlan.Alternatives
import FedPlan.Plan.Rebuild
import FedPlan.Proofs.Graph.Chains
import FedPlan.Proofs.Greedy
import FedPlan.WordSet.Traversal
import FedPlan.Proofs.Component.Exploration
import FedPlan.Proofs.OpenInputs
import FedPlan.Proofs.Component.Coverage
import FedPlan.Proofs.Component.Exactness
import FedPlan.Proofs.Sharing.Disjointness
import FedPlan.Proofs.Sharing.Candidates
import FedPlan.Proofs.Sharing.Contraction
import FedPlan.Proofs.Sharing.Substitution
import FedPlan.Proofs.Planning
import FedPlan.Proofs.Sharing.Run
import FedPlan.Proofs.Sharing.Alike
import FedPlan.Proofs.Sharing.Leaves
import FedPlan.Proofs.Sharing.Overlaps
import FedPlan.Proofs.Sharing.Discarding
import FedPlan.Proofs.Aggregation
import FedPlan.Proofs.Alternatives
import FedPlan.Proofs.Outcome
import FedPlan.Proofs.Sharing.AnyStrategy
import FedPlan.Proofs.Sharing.Asked
import FedPlan.Proofs.UnchangedPaths
import FedPlan.Proofs.Conservation
import FedPlan.Proofs.History
import FedPlan.Proofs.Verification
import FedPlan.Proofs.Unfolding
import FedPlan.Proofs.GreedyPlans
import FedPlan.Proofs.LeafCounts
import FedPlan.Proofs.Graph.Additions
import FedPlan.Proofs.Graph.Restriction
import FedPlan.Proofs.Sharing.CommonCore
import FedPlan.Proofs.Plan.LeafSequence
import FedPlan.Proofs.GreedySelection
import FedPlan.Proofs.DirectJoins
import FedPlan.Proofs.Plan.Replacement
import FedPlan.Proofs.Plan.Estimates
import FedPlan.Proofs.Graph.ForeignSets
import FedPlan.Proofs.WordSet.Listing
import FedPlan.Proofs.WordSet.Programs
import FedPlan.Proofs.QueryPositions
import FedPlan.Proofs.Plan.Built
