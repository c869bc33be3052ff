import FedPlan.Graph.NodeSet
import FedPlan.Graph.NodeTable

/-!
# Join graphs

The nodes of a join graph are pairwise different plans, and two nodes are adjacent if they can be
joined directly. A graph only grows: new nodes are put behind the old ones, and a plan that is a
node already keeps its position. The adjacency is stored with the nodes that it belongs to.
-/

namespace FedPlan

/-- Each two positions of plans that can be joined, the smaller one first. -/
def joinablePairs (nodes : List Plan) : List (Nat × Nat) :=
  nodes.zipIdx.flatMap fun (p, i) =>
    ((nodes.zipIdx.drop (i + 1)).filter fun (q, _) => p.canJoin q).map fun (_, j) => (i, j)

/-- Makes two positions adjacent to each other. -/
def joinPair (adjacency : List WordSet) (pair : Nat × Nat) : List WordSet :=
  (adjacency.modify pair.1 (·.insert pair.2)).modify pair.2 (·.insert pair.1)

/-- For each node the positions of the other nodes that it can be joined with. Each two nodes are
compared once. -/
def adjacencyOf (nodes : List Plan) : List WordSet :=
  (joinablePairs nodes).foldl joinPair (.replicate nodes.length ∅)

@[simp] theorem length_adjacencyOf (nodes : List Plan) :
    (adjacencyOf nodes).length = nodes.length := by
  have hfold : ∀ (pairs : List (Nat × Nat)) (adjacency : List WordSet),
      (pairs.foldl joinPair adjacency).length = adjacency.length := by
    intro pairs
    induction pairs with
    | nil => exact fun _ => rfl
    | cons pair pairs ih => simp [ih, joinPair]
  simp [adjacencyOf, hfold]

structure JoinGraph extends NodeTable where
  id : GraphId
  adjacency : List WordSet
  adjacency_eq : adjacency = adjacencyOf nodes

namespace JoinGraph

/-- The graph of the given plans, each at the place of its first appearance. -/
def ofNodes (id : GraphId) (ps : List Plan) : JoinGraph :=
  let table := (NodeTable.empty.pushAll ps).1
  { table with
    id
    adjacency := adjacencyOf table.nodes
    adjacency_eq := rfl }

theorem nodes_ofNodes (id : GraphId) (ps : List Plan) : (ofNodes id ps).nodes = ps.eraseDups := by
  have hempty : NodeTable.empty.nodes = ([] : List Plan).eraseDups := rfl
  exact NodeTable.nodes_pushAll_eq_eraseDups hempty ps

def size (g : JoinGraph) : Nat := g.nodes.length

def isEmpty (g : JoinGraph) : Bool := g.nodes.isEmpty

def node? (g : JoinGraph) (i : Nat) : Option Plan := g.nodes[i]?

def position? (g : JoinGraph) (p : Plan) : Option Nat := g.index.lookup p

/-- The nodes adjacent to the node at `i`; none if there is no such node. -/
def neighbors (g : JoinGraph) (i : Nat) : WordSet := g.adjacency[i]?.getD ∅

/-- The graph with the nodes of a table that has more of them. If it has as many as there are rows
of the adjacency, nothing was added and the adjacency is kept. -/
def withTable (g : JoinGraph) (t : NodeTable) (h : g.nodes <+: t.nodes) : JoinGraph :=
  { t with
    id := g.id
    adjacency := if g.adjacency.length = t.nodes.length then g.adjacency else adjacencyOf t.nodes
    adjacency_eq := by
      split
      · next hlen =>
        rw [g.adjacency_eq, length_adjacencyOf] at hlen
        rw [g.adjacency_eq, h.eq_of_length hlen]
      · rfl }

/-- The grown graph and the position of each given plan in it. -/
def addAll (g : JoinGraph) (ps : List Plan) : JoinGraph × List Nat :=
  let pushed := g.pushAll ps
  (g.withTable pushed.1 (g.prefix_pushAll ps), pushed.2)

def add (g : JoinGraph) (p : Plan) : JoinGraph × Nat :=
  let pushed := g.push p
  (g.withTable pushed.1 (g.prefix_push p), pushed.2)

/-! ## Sets of nodes -/

def own (g : JoinGraph) (members : WordSet) : NodeSet := ⟨g.id, members⟩

def setOf (g : JoinGraph) (positions : List Nat) : NodeSet := g.own (.ofList positions)

def emptySet (g : JoinGraph) : NodeSet := g.own ∅

def fullSet (g : JoinGraph) : NodeSet := g.own (.range g.size)

/-- The nodes at the given positions, in ascending order and with their positions. -/
def select (g : JoinGraph) (members : WordSet) : List (Nat × Plan) :=
  members.toList.filterMap fun i => (g.node? i).map (i, ·)

/-! ## Checked access -/

def nodeAt (g : JoinGraph) (i : Nat) : Except Violation Plan :=
  match g.node? i with
  | some p => .ok p
  | none => .error (.unknownNode i g.size)

def neighborsAt (g : JoinGraph) (i : Nat) : Except Violation NodeSet :=
  if i < g.size then .ok (g.own (g.neighbors i)) else .error (.outsideGraph i)

/-- The smallest member that is no position of the graph. -/
def stray? (g : JoinGraph) (s : NodeSet) : Option Nat := s.members.toList.find? (g.size ≤ ·)

/-- Fails unless `s` belongs to the graph and every member is the position of a node. -/
def requireMember (g : JoinGraph) (s : NodeSet) : Except Violation Unit :=
  if s.owner ≠ g.id then .error .foreignSet
  else if (g.stray? s).isSome then .error (.beyondGraph s.members)
  else .ok ()

def membersOf (g : JoinGraph) (s : NodeSet) : Except Violation (List Plan) := do
  g.requireMember s
  pure ((g.select s.members).map (·.2))

/-- A graph of its own that has only the members of the set as nodes. -/
def restrict (g : JoinGraph) (id : GraphId) (s : NodeSet) : Except Violation JoinGraph := do
  pure (ofNodes id (← g.membersOf s))

end JoinGraph

end FedPlan
