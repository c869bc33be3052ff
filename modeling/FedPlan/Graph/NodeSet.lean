import FedPlan.WordSet.Cursor

/-!
# Node sets

The nodes of a join graph are numbered in the order in which they were added, and a set of nodes is
a set of these positions together with the identity of its graph. Positions never change, so a set
stays valid when its graph grows. Sets of different graphs are never combined; this and the other
ways in which a caller can misuse a graph are the violations listed here.
-/

namespace FedPlan

structure GraphId where
  number : Nat
deriving DecidableEq

/-- What a caller promised and did not keep, or what a check found broken. -/
inductive Violation where
  | mixedGraphs
  | foreignSet
  | beyondGraph (members : WordSet)
  | unknownNode (position size : Nat)
  | outsideGraph (position : Nat)
  | emptySubset
  | overlapping (a b : WordSet)
  | unconnectedComponent (members : WordSet)
  | unsatisfiedComponent (members : WordSet)
  | unconnectedPath (members : WordSet)
  | unconnectedReducedPath (members : WordSet)
  | unreplaced (members : WordSet)
deriving DecidableEq

def positionText (position : Nat) : String := "#" ++ toString position

def Violation.message : Violation → String
  | .mixedGraphs => "Fragment sets of different universes cannot be combined"
  | .foreignSet => "The fragment set belongs to another universe"
  | .beyondGraph members => "The fragment set " ++ members.text ++ " exceeds the universe"
  | .unknownNode position size =>
    "Fragment " ++ positionText position ++ " is not part of a universe with " ++ toString size ++
      " fragments"
  | .outsideGraph position =>
    "Fragment " ++ positionText position ++ " is not part of the join graph"
  | .emptySubset => "Cannot plan an empty set of fragments"
  | .overlapping a b => "The fragment sets " ++ a.text ++ " and " ++ b.text ++ " overlap"
  | .unconnectedComponent members => "Component " ++ members.text ++ " is not connected"
  | .unsatisfiedComponent members => "Component " ++ members.text ++ " is not input-satisfied"
  | .unconnectedPath members => "Path " ++ members.text ++ " is not connected"
  | .unconnectedReducedPath members => "Reduced path " ++ members.text ++ " is not connected"
  | .unreplaced members =>
    "The shared fragments " ++ members.text ++ " remain in the reduced graph"

structure NodeSet where
  owner : GraphId
  members : WordSet
deriving DecidableEq

namespace NodeSet

def contains (s : NodeSet) (i : Nat) : Bool := s.members.contains i

def insert (s : NodeSet) (i : Nat) : NodeSet := { s with members := s.members.insert i }

def tryInsert (s : NodeSet) (i : Nat) : Bool × NodeSet :=
  let (changed, members) := s.members.tryInsert i
  (changed, { s with members })

def tryErase (s : NodeSet) (i : Nat) : Bool × NodeSet :=
  let (changed, members) := s.members.tryErase i
  (changed, { s with members })

def isEmpty (s : NodeSet) : Bool := s.members.isEmpty

def size (s : NodeSet) : Nat := s.members.size

def text (s : NodeSet) : String := s.members.text

def combine (op : WordSet → WordSet → α) (s t : NodeSet) : Except Violation α :=
  if s.owner = t.owner then .ok (op s.members t.members) else .error .mixedGraphs

def union? (s t : NodeSet) : Except Violation NodeSet :=
  combine (fun a b => ⟨s.owner, a ∪ b⟩) s t

def inter? (s t : NodeSet) : Except Violation NodeSet :=
  combine (fun a b => ⟨s.owner, a ∩ b⟩) s t

def diff? (s t : NodeSet) : Except Violation NodeSet :=
  combine (fun a b => ⟨s.owner, a \ b⟩) s t

def isSubset? (s t : NodeSet) : Except Violation Bool := combine WordSet.isSubset s t

def isDisjoint? (s t : NodeSet) : Except Violation Bool := combine WordSet.isDisjoint s t

end NodeSet

end FedPlan
