import FedPlan.Proofs.Graph.Growth

/-!
# Additions

Plans are added to a graph one at a time or several together, and some of them may be nodes already.
Both kinds of calls keep the list of the nodes, the index of their positions and the adjacency in step.
-/

namespace FedPlan

/-- A call that puts plans into a graph. -/
inductive Addition where
  | one (p : Plan)
  | several (ps : List Plan)

namespace Addition

/-- The plans that the call gives to the graph. -/
def plans : Addition → List Plan
  | .one p => [p]
  | .several ps => ps

/-- The grown graph and the positions that the call returns. -/
def apply (g : JoinGraph) : Addition → JoinGraph × List Nat
  | .one p => ((g.add p).1, [(g.add p).2])
  | .several ps => g.addAll ps

end Addition

namespace JoinGraph

variable {g : JoinGraph} {given : List Plan}

/-- The graph after additions made one after another. -/
def afterAdditions (g : JoinGraph) (additions : List Addition) : JoinGraph :=
  additions.foldl (fun g addition => (addition.apply g).1) g

/-- The nodes of the graph are the given plans, each of them once and in the order in which they came
first, and what is stored beside the nodes belongs to them. -/
structure Numbers (g : JoinGraph) (given : List Plan) : Prop where
  nodes : g.nodes = given.eraseDups
  distinct : g.nodes.Nodup
  position? : ∀ p i, g.position? p = some i ↔ g.node? i = some p
  returned : ∀ addition : Addition,
    (addition.apply g).2.map (addition.apply g).1.node? = addition.plans.map some
  rows : g.adjacency.length = g.size
  neighbors : ∀ i j, j ∈ g.neighbors i ↔
    i ≠ j ∧ ∃ p q, g.node? i = some p ∧ g.node? j = some q ∧ p.canJoin q = true
  symmetric : ∀ i j, j ∈ g.neighbors i ↔ i ∈ g.neighbors j
  irreflexive : ∀ i, i ∉ g.neighbors i

theorem node?_apply (g : JoinGraph) (addition : Addition) :
    (addition.apply g).2.map (addition.apply g).1.node? = addition.plans.map some := by
  cases addition with
  | one p => simp [Addition.apply, Addition.plans, node?_add]
  | several ps => exact g.getElem?_pushAll ps

theorem numbers (h : g.nodes = given.eraseDups) : g.Numbers given where
  nodes := h
  distinct := g.nodup
  position? := fun _ _ => position?_eq_some_iff
  returned := node?_apply g
  rows := by rw [g.adjacency_eq, length_adjacencyOf, size]
  neighbors := fun _ _ => mem_neighbors
  symmetric := fun _ _ => mem_neighbors_comm
  irreflexive := fun _ h => (mem_neighbors.1 h).1 rfl

theorem nodes_apply (h : g.nodes = given.eraseDups) (addition : Addition) :
    (addition.apply g).1.nodes = (given ++ addition.plans).eraseDups := by
  cases addition with
  | one p => exact NodeTable.nodes_push_eq_eraseDups h p
  | several ps => exact NodeTable.nodes_pushAll_eq_eraseDups h ps

theorem nodes_afterAdditions (h : g.nodes = given.eraseDups) (additions : List Addition) :
    (g.afterAdditions additions).nodes =
      (given ++ additions.flatMap Addition.plans).eraseDups := by
  induction additions generalizing g given with
  | nil => simpa [afterAdditions] using h
  | cons addition additions ih =>
    rw [List.flatMap_cons, ← List.append_assoc]
    exact ih (nodes_apply h addition)

/-- Every mix of new and repeated plans leaves the nodes numbered by their first appearance. -/
theorem numbers_afterAdditions (id : GraphId) (ps : List Plan) (additions : List Addition) :
    ((ofNodes id ps).afterAdditions additions).Numbers
      (ps ++ additions.flatMap Addition.plans) := by
  apply numbers
  exact nodes_afterAdditions (nodes_ofNodes id ps) additions

end JoinGraph

end FedPlan
