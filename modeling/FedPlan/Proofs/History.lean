import FedPlan.Proofs.Conservation
import FedPlan.Proofs.Outcome

/-!
# Histories of a graph

The calls that may add nodes to a graph are made one after another, some of them with strategies
that give up or answer with any plan. Each call, whether it succeeds or fails, makes the graph grow
or leaves it as it is, so the graph that is left in the end conserves all that could be asked before.
-/

namespace FedPlan

/-- A call that may add nodes to a graph. -/
inductive GraphCall where
  | add (p : Plan)
  | addAll (ps : List Plan)
  | reduce (strategy : Strategy) (sets : List NodeSet)
  | planQuery (options : Options) (strategy : Strategy) (q : Query)
  | aggregate (options : Options) (strategy : Strategy) (paths : List NodeSet)

/-- The graph that a call leaves behind, also if it fails. -/
def GraphCall.graphAfter (g : JoinGraph) : GraphCall → JoinGraph
  | .add p => (g.add p).1
  | .addAll ps => (g.addAll ps).1
  | .reduce strategy sets => (PlanM.reduce strategy sets).graphAfter ⟨g, []⟩
  | .planQuery options strategy q => (PlanM.planQuery options strategy q).graphAfter ⟨g, []⟩
  | .aggregate options strategy paths => (PlanM.aggregate options strategy paths).graphAfter ⟨g, []⟩

namespace JoinGraph

theorem Grows.add {g g' : JoinGraph} (h : g.Grows g') (p : Plan) : g.Grows (g'.add p).1 :=
  h.trans (add_grows g' p)

theorem grows_graphAfter (g : JoinGraph) (call : GraphCall) : g.Grows (call.graphAfter g) := by
  have hadd : ∀ h p, g.Grows h → g.Grows (h.add p).1 := fun _ p hgrows => hgrows.add p
  cases call with
  | add p => exact add_grows g p
  | addAll ps => exact addAll_grows g ps
  | reduce strategy sets => exact PlanM.keeps_reduce hadd sets ⟨g, []⟩ (.refl g)
  | planQuery options strategy q => exact PlanM.keeps_planQuery hadd options q ⟨g, []⟩ (.refl g)
  | aggregate options strategy paths =>
    exact PlanM.keeps_aggregate hadd options paths ⟨g, []⟩ (.refl g)

/-- The graph after calls made one after another. -/
def afterCalls (g : JoinGraph) (calls : List GraphCall) : JoinGraph :=
  calls.foldl GraphCall.graphAfter g

theorem grows_afterCalls (g : JoinGraph) (calls : List GraphCall) :
    g.Grows (g.afterCalls calls) := by
  induction calls generalizing g with
  | nil => exact .refl g
  | cons call calls ih => exact (grows_graphAfter g call).trans (ih _)

/-- No history of calls changes an answer about the old nodes. -/
theorem conserves_afterCalls (g : JoinGraph) (calls : List GraphCall) :
    g.Conserves (g.afterCalls calls) :=
  (grows_afterCalls g calls).conserves

end JoinGraph

end FedPlan
