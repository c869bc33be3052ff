import FedPlan.Graph.Basic

/-!
# Inputs and orders

A needed input of a member of a set is open if no other member binds it. Nodes have an input order
if they can be evaluated one after another such that each input that some node of the list binds is
bound before it is needed. Inputs that no node binds do not matter here: they stay inputs.
-/

namespace FedPlan

namespace JoinGraph

/-- The needed inputs of the members that no other member binds. -/
def openInputs (g : JoinGraph) (members : WordSet) : VarSet :=
  let nodes := g.select members
  .ofList <| nodes.flatMap fun (i, p) =>
    p.required.toList.filter fun v => !nodes.any fun (j, q) => j != i && v ∈ q.results

/-- Only the positions are checked; the identity of the graph is not compared. -/
def openInputs? (g : JoinGraph) (s : NodeSet) : Except Violation VarSet :=
  match g.stray? s with
  | some i => .error (.unknownNode i g.size)
  | none => .ok (g.openInputs s.members)

def isSatisfied? (g : JoinGraph) (s : NodeSet) : Except Violation Bool :=
  (g.openInputs? s).map (·.isEmpty)

end JoinGraph

def producedBy (ps : List Plan) : VarSet := ps.foldl (fun vs p => vs ∪ p.results) ∅

/-- A plan is ready if each needed input that is produced at all is bound already. -/
def Plan.isReady (produced bound : VarSet) (p : Plan) : Bool :=
  p.required.toList.all fun v => v ∉ produced || v ∈ bound

/-- The list with its last value in front of the others. -/
def lastFirst : List α → List α
  | [] => []
  | a :: as => (a :: as).getLast (List.cons_ne_nil a as) :: (a :: as).dropLast

/-- The first ready plan and the others. The last plan of the list takes its place. -/
def takeReady (produced bound : VarSet) : List Plan → Option (Plan × List Plan)
  | [] => none
  | p :: ps =>
    if p.isReady produced bound then some (p, lastFirst ps)
    else (takeReady produced bound ps).map fun (q, rest) => (q, p :: rest)

def hasOrderFrom (produced : VarSet) : Nat → VarSet → List Plan → Bool
  | _, _, [] => true
  | 0, _, _ :: _ => false
  | steps + 1, bound, p :: ps =>
    match takeReady produced bound (p :: ps) with
    | some (q, rest) => hasOrderFrom produced steps (bound ∪ q.results) rest
    | none => false

/-- Takes out one ready plan after another. What is bound only grows, so it does not matter which of
several ready plans is taken, nor how the others are arranged. -/
def hasInputOrder (ps : List Plan) : Bool := hasOrderFrom (producedBy ps) ps.length ∅ ps

end FedPlan
