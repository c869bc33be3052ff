import FedPlan.Failure
import FedPlan.Graph.Basic
import FedPlan.Tally

/-!
# Strategies

A strategy turns a set of nodes into one plan that joins them. It answers `none` if they cannot be
ordered. While plans are made the graph grows, and it is recorded which sets the strategy was asked
for; both survive a failure.
-/

namespace FedPlan

abbrev Strategy := JoinGraph → NodeSet → Except Failure (Option Plan)

/-- The graph that is planned on, and the sets the strategy was asked for so far. -/
structure Planning where
  graph : JoinGraph
  asked : List NodeSet := []

abbrev PlanM := EStateM Failure Planning

namespace PlanM

def ofExcept : Except Failure α → PlanM α
  | .ok a => pure a
  | .error e => throw e

def check (result : Except Violation α) : PlanM α := ofExcept (result.mapError .violation)

def graph : PlanM JoinGraph := return (← get).graph

def addNode (p : Plan) : PlanM Nat := do
  let (grown, i) := (← graph).add p
  modify fun s => { s with graph := grown }
  pure i

def ask (strategy : Strategy) (subset : NodeSet) : PlanM (Option Plan) := do
  modify fun s => { s with asked := s.asked ++ [subset] }
  ofExcept (strategy (← graph) subset)

/-- The plan for a set of nodes of the graph. A single node is its own plan, and only for larger
sets the strategy is asked. -/
def planSubset (strategy : Strategy) (subset : NodeSet) : PlanM (Option Plan) := do
  let g ← graph
  check (g.requireMember subset)
  match subset.members.toList with
  | [] => throw (.violation .emptySubset)
  | [i] => pure (g.node? i)
  | _ => ask strategy subset

end PlanM

/-- The leaves of the given plans set off against those of one plan: what the plan lacks is counted up,
and what it has too often is counted down. -/
def leafBalance (ps : List Plan) (plan : Plan) : Tally Fragment :=
  let due := ps.foldl (fun t p => Tally.addAll t p.leaves 1) .empty
  due.addAll plan.leaves (-1)

/-- A plan for a subset has the fragments of the members as its leaves, each as often as in all
members together. -/
def JoinGraph.verifyPlan (g : JoinGraph) (subset : NodeSet) (plan : Plan) :
    Except Failure Unit := do
  let members ← (g.membersOf subset).mapError .violation
  if (leafBalance members plan).isBalanced then pure ()
  else throw (.wrongPlan subset.members)

end FedPlan
