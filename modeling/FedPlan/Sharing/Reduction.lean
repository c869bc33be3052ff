import FedPlan.Inputs
import FedPlan.Sharing.Overlap
import FedPlan.Strategy

/-!
# Reduction

Every subset that is shared between sets of nodes is planned once. Its plan becomes a node of the
graph and stands for the subset in each set that contains it. A subset is left as it is if it has no
plan, or if with its plan in place some set would lose its input order.
-/

namespace FedPlan

/-- A shared subset with its plan and the position of that plan in the graph. -/
structure SharedNode where
  members : NodeSet
  position : Nat
  plan : Plan

/-- The subsets that were replaced and what the sets have become, in the order of the sets. -/
structure Reduction where
  shared : List SharedNode
  reduced : List NodeSet

namespace JoinGraph

/-- Whether the set, if it had an input order, still has one with the plan in place of the
members. -/
def keepsOrder? (g : JoinGraph) (members : WordSet) (plan : Plan) (s : NodeSet) :
    Except Violation Bool := do
  if !members.isSubset s.members then return true
  let rest ← g.membersOf { s with members := s.members \ members }
  if hasInputOrder (rest ++ [plan]) then return true
  return !hasInputOrder (← g.membersOf s)

end JoinGraph

/-- Puts the node at `position` in the place of the members, if the set contains all of them. -/
def NodeSet.replace (s : NodeSet) (members : WordSet) (position : Nat) : NodeSet :=
  if members.isSubset s.members then
    { s with members := (s.members \ members).insert position }
  else s

namespace PlanM

/-- Plans one shared subset and replaces it, unless there is a reason not to. -/
def shareSubset (strategy : Strategy) (r : Reduction) (members : WordSet) : PlanM Reduction := do
  let subset := (← graph).own members
  match ← planSubset strategy subset with
  | none => pure r
  | some plan =>
    let g ← graph
    if ← check (r.reduced.allM (g.keepsOrder? members plan)) then
      let position ← addNode plan
      pure
        { shared := r.shared ++ [{ members := subset, position, plan }]
          reduced := r.reduced.map (·.replace members position) }
    else pure r

/-- The shared subsets are found before the first one is replaced. They come from sets of one graph,
since the intersection of each two sets has been taken. -/
def reduce (strategy : Strategy) (sets : List NodeSet) : PlanM Reduction := do
  let g ← graph
  let subsets ← check (g.sharedSubsets? sets)
  (subsets.flatMap (g.splitBy sets)).foldlM (shareSubset strategy) ⟨[], sets⟩

end PlanM

end FedPlan
