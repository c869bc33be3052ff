import FedPlan.Plan.Basic

/-!
# Estimated cardinalities

The estimate of a plan is a measure of cost by which plans are compared. A pattern with few bound
positions is expensive, and every variable on which two inputs are joined divides their product by
a thousand. What a source announces about itself takes precedence.
-/

namespace FedPlan

namespace Term

/-- Constants are bound, and so are variables that are given as inputs. -/
def isBound (inputs : VarSet) : Term → Bool
  | .var v => v ∈ inputs
  | .iri _ => true
  | .blank _ => false
  | .literal _ => true

end Term

def Predicate.isBound (inputs : VarSet) : Predicate → Bool
  | .var v => v ∈ inputs
  | .iri _ => true

namespace Cardinality

/-- The number of results of a pattern, told by whether its subject, its predicate and its object are
bound. -/
def ofBound : Bool → Bool → Bool → Cardinality
  | true, true, true => ofNat 1
  | true, true, false => ofNat 10
  | true, false, true => ofNat 2
  | true, false, false => ofNat 100
  | false, true, true => ofNat 10000
  | false, true, false => ofNat 1000000
  | false, false, true => ofNat 100000
  | false, false, false => ofNat 1000000000

def ofPattern (inputs : VarSet) (t : TriplePattern) : Cardinality :=
  ofBound (t.subject.isBound inputs) (t.predicate.isBound inputs) (t.object.isBound inputs)

/-- The estimate of two inputs joined on `shared` variables. That their number could exceed 32 bits is taken
to be impossible, so no failure is modelled for it. -/
def joined (lhs rhs : Cardinality) (shared : Nat) : Cardinality := lhs * rhs / power 1000 shared

def joinPatterns (inputs : VarSet) (c : Cardinality) (seen : VarSet) :
    List TriplePattern → Cardinality
  | [] => c
  | t :: ts =>
    let vars := VarSet.ofList t.vars
    joinPatterns inputs (joined c (ofPattern inputs t) (seen ∩ vars).size) (seen ∪ vars) ts

/-- The patterns of one source are joined in their order. -/
def ofPatterns (inputs : VarSet) : List TriplePattern → Cardinality
  | [] => max
  | t :: ts => joinPatterns inputs (ofPattern inputs t) (.ofList t.vars) ts

end Cardinality

def Fragment.estimate (f : Fragment) : Cardinality :=
  f.hint.getD (.ofPatterns f.signature.required f.signature.triples)

def PlanTree.estimate : PlanTree → Cardinality
  | .source f => f.estimate
  | .join l r shape => .joined l.estimate r.estimate shape.on.size

def Plan.estimate (p : Plan) : Cardinality := p.tree.estimate

end FedPlan
