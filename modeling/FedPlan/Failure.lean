import FedPlan.Graph.NodeSet
import FedPlan.Plan.Basic

/-!
# Failures of planning

Everything that can end a planning call: a part that could not be built, a strategy that gives up, a
plan that is not a plan for its subset, or a violation.
-/

namespace FedPlan

inductive Failure where
  | fragment (cause : FragmentError)
  | join (cause : JoinError)
  | strategy (reason : String)
  | wrongPlan (subset : WordSet)
  | violation (cause : Violation)
deriving DecidableEq

def Failure.message : Failure → String
  | .fragment cause => "External error: " ++ cause.message
  | .join cause => cause.message
  | .strategy reason => reason
  | .wrongPlan subset =>
    "The plan for " ++ subset.text ++ " does not join each fragment exactly once"
  | .violation cause => cause.message

end FedPlan
