import FedPlan.Graph.Basic

/-!
# Reachability and connectivity

A node is reachable within a set if a chain of adjacent members of the set leads to it. A set is
connected if each of its members is reachable from its first one; the empty set is connected.
-/

namespace FedPlan

/-- A search has visited some nodes. The neighbours of those in the queue have not been looked at. -/
structure Sweep where
  visited : WordSet
  queue : List Nat

namespace JoinGraph

def around (g : JoinGraph) (members : WordSet) : WordSet :=
  members.toList.foldl (fun found i => found ∪ g.neighbors i) ∅

/-- The positions adjacent to a member that are not members themselves. -/
def neighborhood (g : JoinGraph) (members : WordSet) : WordSet := g.around members \ members

/-- Takes one node after another from the front of the queue. Its allowed neighbours that have not been
visited yet are visited now and put at the end of the queue. -/
def explore (g : JoinGraph) (allowed : WordSet) : Nat → Sweep → Sweep
  | 0, sweep => sweep
  | steps + 1, sweep =>
    match sweep.queue with
    | [] => sweep
    | i :: queue =>
      let next := (g.neighbors i ∩ allowed) \ sweep.visited
      g.explore allowed steps ⟨sweep.visited ∪ next, queue ++ next.toList⟩

/-- No node is put into the queue twice, so there are no more steps than nodes, and one for a start that
is none. -/
def search (g : JoinGraph) (start : Nat) (allowed : WordSet) : Sweep :=
  let visited := WordSet.singleton start ∩ allowed
  g.explore allowed (g.size + 1) ⟨visited, visited.toList⟩

/-- The members of `allowed` to which a chain of members of `allowed` leads from `start`. -/
def reach (g : JoinGraph) (start : Nat) (allowed : WordSet) : WordSet :=
  (g.search start allowed).visited

def isConnected (g : JoinGraph) (members : WordSet) : Bool :=
  match members.first? with
  | none => true
  | some start => g.reach start members == members

/-! ## Checked access -/

def neighborhood? (g : JoinGraph) (s : NodeSet) : Except Violation NodeSet :=
  match g.stray? s with
  | some i => .error (.outsideGraph i)
  | none => (g.own (g.around s.members)).diff? s

def reach? (g : JoinGraph) (start : Nat) (allowed : NodeSet) : Except Violation NodeSet :=
  if allowed.owner ≠ g.id then .error .mixedGraphs
  else if start ∈ allowed.members ∧ g.size ≤ start then .error (.outsideGraph start)
  else .ok (g.own (g.reach start allowed.members))

def isConnected? (g : JoinGraph) (s : NodeSet) : Except Violation Bool :=
  match s.members.first? with
  | none => .ok true
  | some start => do pure ((← g.reach? start s) == s)

end JoinGraph

end FedPlan
