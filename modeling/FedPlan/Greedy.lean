import FedPlan.Inputs
import FedPlan.Plan.Estimate
import FedPlan.Strategy

/-!
# Greedy join orders

The cheapest plan that is ready comes first. Then the plans that are ready are joined to its right
one after another: those that can be joined directly with the plan made so far before the others,
and cheap ones before expensive ones. Of equal plans the one that stands first is taken.
-/

namespace FedPlan

structure Candidate where
  plan : Plan
  cost : Cardinality

/-- The first of the eligible values that no other eligible one is better than, and all other
values in their order. -/
def takeBest (eligible : α → Bool) (noWorse : α → α → Bool) : List α → Option (α × List α)
  | [] => none
  | a :: rest =>
    match takeBest eligible noWorse rest with
    | none => if eligible a then some (a, rest) else none
    | some (b, others) =>
      if eligible a && noWorse a b then some (a, rest) else some (b, a :: others)

namespace Candidate

def isReady (produced bound : VarSet) (c : Candidate) : Bool := c.plan.isReady produced bound

def noDearer (a b : Candidate) : Bool := a.cost ≤ b.cost

/-- What joins directly with `current` comes first, then what is cheaper. -/
def noWorseAfter (current : Plan) (a b : Candidate) : Bool :=
  match current.canJoin a.plan, current.canJoin b.plan with
  | true, false => true
  | false, true => false
  | _, _ => a.noDearer b

end Candidate

/-- Joins the pending plans onto `current`, the best ready one first. Every turn takes one of them, so
their number is enough steps. -/
def joinRest (produced : VarSet) :
    Nat → Plan → List Candidate → Except JoinError (Option Plan)
  | _, current, [] => .ok (some current)
  | 0, _, _ :: _ => .ok none
  | steps + 1, current, pending =>
    match takeBest (·.isReady produced current.results) (Candidate.noWorseAfter current)
        pending with
    | none => .ok none
    | some (next, rest) => do joinRest produced steps (← current.join? next.plan) rest

/-- The greedy order of the plans of a list; `none` if at some point none of them is ready. -/
def greedyOrder (cost : Plan → Cardinality) (ps : List Plan) : Except JoinError (Option Plan) :=
  let produced := producedBy ps
  let candidates := ps.map fun p => { plan := p, cost := cost p }
  match takeBest (Candidate.isReady produced ∅) Candidate.noDearer candidates with
  | none => .ok none
  | some (first, rest) => joinRest produced rest.length first.plan rest

namespace Strategy

def greedyBy (cost : Plan → Cardinality) : Strategy := fun g subset => do
  let ps ← (g.membersOf subset).mapError .violation
  (greedyOrder cost ps).mapError .join

def greedy : Strategy := greedyBy Plan.estimate

end Strategy

end FedPlan
