import FedPlan.Rdf.TriplePattern
import FedPlan.VarSet

/-!
# Signatures

The signature of a plan says which triple patterns the plan matches, which variables it binds, which
it needs as inputs and which it accepts as inputs. Two plans can be put together when their
signatures fit; the left one is evaluated first and passes its bindings on to the right one.
-/

namespace FedPlan

structure Signature where
  triples : List TriplePattern
  results : VarSet
  required : VarSet
  optional : VarSet
deriving DecidableEq

namespace Signature

/-- A variable is mentioned if it is bound, needed or accepted. -/
def mentions (s : Signature) (v : Variable) : Bool :=
  v ∈ s.results || v ∈ s.required || v ∈ s.optional

/-- One of the two binds a variable that the other one mentions. -/
def canJoin (a b : Signature) : Bool :=
  a.results.toList.any b.mentions || b.results.toList.any a.mentions

/-- The signature of a join. Inputs of the right side that the left side binds are inputs no
longer, and an input that is needed by one side is not listed as merely accepted. -/
def join (l r : Signature) : Signature :=
  let required := l.required ∪ (r.required \ l.results)
  { triples := (l.triples ++ r.triples).eraseDups
    results := l.results ∪ r.results
    required
    optional := (l.optional ∪ (r.optional \ l.results)) \ required }

end Signature

/-- Either both inputs are evaluated on their own, or the bindings of the left one are passed
into the evaluation of the right one. -/
inductive JoinKind where
  | hash
  | bind
deriving DecidableEq

def JoinKind.text : JoinKind → String
  | .hash => "Hash"
  | .bind => "Bind"

inductive JoinError where
  /-- The left input needs a variable that only the right input binds. -/
  | boundLater (v : Variable)
deriving DecidableEq

def JoinError.message : JoinError → String
  | .boundLater v =>
    "The left input of a join requires " ++ v.text ++ ", which is only bound by the right input."

/-- What a join derives from the signatures of its inputs: how they are combined, on which
variables, and the signature of the whole. -/
structure JoinShape where
  kind : JoinKind
  on : VarSet
  signature : Signature
deriving DecidableEq

namespace JoinShape

/-- The left side is evaluated first, so it may not need what only the right side binds. -/
def of? (l r : Signature) : Except JoinError JoinShape :=
  match (l.required ∩ r.results).toList with
  | v :: _ => .error (.boundLater v)
  | [] =>
    let passed := (r.required ∪ r.optional) ∩ l.results
    .ok
      { kind := if passed.isEmpty then .hash else .bind
        on := l.results.filter r.mentions
        signature := l.join r }

def text (s : JoinShape) : String :=
  "Join: " ++ s.kind.text ++ if s.on.isEmpty then "" else " on " ++ s.on.text

end JoinShape

end FedPlan
