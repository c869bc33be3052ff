import FedPlan.Graph.Connectivity

/-!
# Shared subsets

Two sets of nodes share their intersection if it is connected and has at least two members. Shared
subsets that overlap are settled so that those recorded are disjoint: the larger one stays as it is
if its part outside of the overlap is connected, and the smaller one keeps what is left of it;
otherwise the smaller one stays and the larger one is given up.
-/

namespace FedPlan

/-- The pairs of values at different places, the first of a pair standing before the second. -/
def pairs : List α → List (α × α)
  | [] => []
  | a :: rest => rest.map (a, ·) ++ pairs rest

namespace JoinGraph

def isShareable (g : JoinGraph) (members : WordSet) : Bool :=
  decide (2 ≤ members.size) && g.isConnected members

/-- What remains of two shared subsets that overlap, first of the larger one. -/
def separate (g : JoinGraph) (larger smaller : WordSet) : Option WordSet × Option WordSet :=
  if g.isConnected (larger \ smaller) then
    let rest := smaller \ larger
    (some larger, if g.isShareable rest then some rest else none)
  else (none, some smaller)

/-- What remains of a recorded subset and of a candidate. Of two equally large sets the recorded one
counts as the larger. -/
def settle (g : JoinGraph) (recorded candidate : WordSet) : Option WordSet × Option WordSet :=
  if candidate.size ≤ recorded.size then g.separate recorded candidate
  else (g.separate candidate recorded).swap

/-- Settles a candidate with one recorded subset after another and records what remains of it. -/
def record (g : JoinGraph) : List WordSet → WordSet → List WordSet
  | [], candidate => [candidate]
  | s :: rest, candidate =>
    if s.isDisjoint candidate then s :: g.record rest candidate
    else if s = candidate then s :: rest
    else
      match g.settle s candidate with
      | (recorded, some candidate) => recorded.toList ++ g.record rest candidate
      | (recorded, none) => recorded.toList ++ rest

def overlap? (g : JoinGraph) (s t : NodeSet) : Except Violation (Option WordSet) := do
  let common ← s.inter? t
  if common.size < 2 then return none
  if ← g.isConnected? common then return some common.members else return none

/-- The disjoint subsets that are shared between the given sets. -/
def sharedSubsets? (g : JoinGraph) (sets : List NodeSet) : Except Violation (List WordSet) := do
  let overlaps ← (pairs sets).filterMapM fun (s, t) => g.overlap? s t
  pure (overlaps.foldl g.record [])

/-- The members grouped by the sets that contain them, as far as the groups can be shared. Each of
the sets contains all members of a group or none. -/
def splitBy (g : JoinGraph) (sets : List NodeSet) (members : WordSet) : List WordSet :=
  let keyed := members.toList.map fun i => (sets.map (·.contains i), i)
  let groups := (keyed.map (·.1)).eraseDups.map fun key =>
    WordSet.ofList ((keyed.filter (·.1 == key)).map (·.2))
  groups.filter g.isShareable

/-- Fails at the first two sets that have a member in common. -/
def requireDisjoint (sets : List NodeSet) : Except Violation Unit :=
  (pairs sets).forM fun (s, t) => do
    unless ← s.isDisjoint? t do throw (.overlapping s.members t.members)

end JoinGraph

end FedPlan
