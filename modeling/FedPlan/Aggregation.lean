import FedPlan.Options
import FedPlan.Sharing.Reduction

/-!
# Aggregation of paths

A path is a connected set of nodes that answers a whole query. Paths are aggregated by planning once
what they share; what is left of them are the nodes of a smaller graph.
-/

namespace FedPlan

/-- The nodes of all reduced paths, the shared subsets, and the reduced paths in the order of the
given ones. -/
structure Aggregation where
  nodes : NodeSet
  shared : List SharedNode
  paths : List NodeSet

namespace Aggregation

def reducedGraph (a : Aggregation) (id : GraphId) (g : JoinGraph) : Except Violation JoinGraph :=
  g.restrict id a.nodes

end Aggregation

namespace JoinGraph

def requirePath (options : Options) (g : JoinGraph) (path : NodeSet) : Except Violation Unit := do
  g.requireMember path
  if options.verify then
    unless ← g.isConnected? path do throw (.unconnectedPath path.members)

/-- Nothing that was replaced may be left, and the reduced paths have to be connected. -/
def requireReduced (g : JoinGraph) (a : Aggregation) : Except Violation Unit := do
  let replaced := a.shared.map (·.members)
  requireDisjoint replaced
  replaced.forM fun s => do
    unless ← s.isDisjoint? a.nodes do throw (.unreplaced s.members)
  a.paths.forM fun path => do
    unless ← g.isConnected? path do throw (.unconnectedReducedPath path.members)

end JoinGraph

namespace PlanM

def aggregate (options : Options) (strategy : Strategy) (paths : List NodeSet) :
    PlanM Aggregation := do
  let g ← graph
  check (paths.forM (g.requirePath options))
  let reduction ← reduce strategy paths
  let g ← graph
  let nodes := reduction.reduced.foldl (fun nodes s => nodes ∪ s.members) ∅
  let a : Aggregation := ⟨g.own nodes, reduction.shared, reduction.reduced⟩
  if options.verify then check (g.requireReduced a)
  pure a

end PlanM

end FedPlan
