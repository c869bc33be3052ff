import FedPlan.Graph.Connectivity
import FedPlan.Inputs
import FedPlan.Query

/-!
# Matching a query

The coverage of a plan is the set of positions of its patterns in a query, if they all occur there.
A component of a query is a connected set of nodes that covers each position exactly once and has
no open input. Such a set grows out of one node by adding adjacent nodes whose coverage is disjoint
from what is covered so far.
-/

namespace FedPlan

/-- The positions of the patterns of a plan; none if one of them is not a pattern of the query. As a plan
has at least one pattern, no check that something is covered is needed. -/
def Query.coverage? (q : Query) (p : Plan) : Option WordSet :=
  (p.triples.mapM q.position?).map .ofList

/-- A graph and a query, with the coverage of every node. -/
structure Matching where
  graph : JoinGraph
  query : Query
  coverage : List (Option WordSet)
  coverage_eq : coverage = graph.nodes.map query.coverage?

namespace Matching

def of (g : JoinGraph) (q : Query) : Matching := ⟨g, q, g.nodes.map q.coverage?, rfl⟩

def coverageAt? (m : Matching) (i : Nat) : Option WordSet := m.coverage[i]?.join

def covered (m : Matching) (members : WordSet) : WordSet :=
  members.toList.foldl (fun c i => c ∪ (m.coverageAt? i).getD ∅) ∅

/-- The nodes that cover something of the query and nothing of `covered`. -/
def fits (m : Matching) (covered : WordSet) (i : Nat) : Bool :=
  match m.coverageAt? i with
  | some c => c.isDisjoint covered
  | none => false

/-- Whether a node that is not a member yet, but can be added, binds the variable. -/
def canStillBind (m : Matching) (members covered : WordSet) (v : Variable) : Bool :=
  m.graph.nodes.zipIdx.any fun (p, i) => v ∈ p.results && i ∉ members && m.fits covered i

/-- The sets that have one adjacent node more. -/
def extensions (m : Matching) (members covered : WordSet) : List WordSet :=
  ((m.graph.neighborhood members).toList.filter (m.fits covered)).map members.insert

/-- The next larger sets that have to be looked at; `none` if the set is a component. A set with an
open input that no other node can bind has no future. -/
def grow? (m : Matching) (members : WordSet) : Option (List WordSet) :=
  let covered := m.covered members
  let inputs := m.graph.openInputs members
  if covered == .range m.query.size && inputs.isEmpty then none
  else if inputs.toList.all (m.canStillBind members covered) then
    some (m.extensions members covered)
  else some []

/-- The sets of one node from which components grow. -/
def seeds (m : Matching) : List WordSet :=
  ((List.range m.graph.size).filter fun i => (m.coverageAt? i).isSome).map .singleton

end Matching

end FedPlan
