import FedPlan.Component.Search
import FedPlan.Greedy
import FedPlan.Options
import FedPlan.Sharing.Reduction

/-!
# Alternative plans of a query

Each component of a query becomes one plan that answers the whole query. What components share is
planned once, if the options say so, and components that cannot be ordered have no plan.
-/

namespace FedPlan

namespace JoinGraph

/-- Fails at the first set that is not connected or has an open input. -/
def requireComponents (g : JoinGraph) (sets : List NodeSet) : Except Violation Unit :=
  sets.forM fun s => do
    unless ← g.isConnected? s do throw (.unconnectedComponent s.members)
    unless ← g.isSatisfied? s do throw (.unsatisfiedComponent s.members)

end JoinGraph

namespace PlanM

/-- The components with the plans of their shared subsets in place. -/
def shareComponents (options : Options) (strategy : Strategy) (components : List NodeSet) :
    PlanM (List NodeSet) := do
  let reduction ← reduce strategy components
  if options.verify then
    check (JoinGraph.requireDisjoint (reduction.shared.map (·.members)))
    check ((← graph).requireComponents reduction.reduced)
  pure reduction.reduced

def planComponent (options : Options) (strategy : Strategy) (component : NodeSet) :
    PlanM (Option Plan) := do
  match ← planSubset strategy component with
  | none => pure none
  | some plan =>
    if options.verify then ofExcept ((← graph).verifyPlan component plan)
    pure (some plan)

/-- The plans of a query in the order of its components. -/
def planQuery (options : Options) (strategy : Strategy) (q : Query) : PlanM (List Plan) := do
  let components := (← graph).components q
  if options.verify then check ((← graph).requireComponents components)
  let components ←
    if options.share && decide (1 < components.length) then
      shareComponents options strategy components
    else pure components
  components.filterMapM (planComponent options strategy)

end PlanM

end FedPlan
