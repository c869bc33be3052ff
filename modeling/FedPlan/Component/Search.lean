import FedPlan.Component.Matching
import Std.Data.TreeSet

/-!
# The search for components

The search goes depth first through the sets that grow out of single nodes. A set is put on the
stack at most once, whichever way it was reached, so no component is found twice.
-/

namespace FedPlan

structure ComponentSearch where
  stack : List WordSet := []
  visited : Std.TreeSet WordSet := ∅
  found : List WordSet := []

namespace ComponentSearch

def push (s : ComponentSearch) (members : WordSet) : ComponentSearch :=
  if s.visited.contains members then s
  else { s with stack := members :: s.stack, visited := s.visited.insert members }

/-- Looks at the set on top of the stack. -/
def step (m : Matching) (s : ComponentSearch) : ComponentSearch :=
  match s.stack with
  | [] => s
  | members :: rest =>
    match m.grow? members with
    | none => { s with stack := rest, found := s.found ++ [members] }
    | some next => next.foldl push { s with stack := rest }

def run (m : Matching) : Nat → ComponentSearch → ComponentSearch
  | 0, s => s
  | steps + 1, s => if s.stack.isEmpty then s else run m steps (s.step m)

/-- The search from one seed, unless it was looked at before. Each step takes another set of nodes
from the stack, so there are no more steps than sets of nodes. -/
def start (m : Matching) (s : ComponentSearch) (seed : WordSet) : ComponentSearch :=
  (s.push seed).run m (Nat.pow 2 m.graph.size)

/-- The search from one seed after another. -/
def startAll (m : Matching) (seeds : List WordSet) : ComponentSearch := seeds.foldl (start m) {}

end ComponentSearch

/-- The components of the query in the order in which they are found. -/
def JoinGraph.components (g : JoinGraph) (q : Query) : List NodeSet :=
  if q.isEmpty then []
  else
    let m := Matching.of g q
    (ComponentSearch.startAll m m.seeds).found.map g.own

end FedPlan
