import FedPlan.Plan.Basic

/-!
# Rebuilding plans

A plan can be given new inputs, which the signatures may forbid. A traversal makes a step on every
node of a plan, on the inputs of a node before the node itself. A node with a changed input is given
its inputs anew; the rest of the plan stays as it is.
-/

namespace FedPlan

inductive RebuildError where
  | sourceWithInputs
  | inputCount (count : Nat)
  | join (cause : JoinError)
deriving DecidableEq

def RebuildError.message : RebuildError → String
  | .sourceWithInputs => "A source fragment cannot have inputs."
  | .inputCount count => "A join must have exactly two inputs, actual: " ++ toString count
  | .join cause => cause.message

namespace Plan

/-- The two sides of a join; a fragment has no inputs. -/
def inputs (p : Plan) : List Plan :=
  match p.root with
  | .source _ => []
  | .join l r _ => [l, r]

/-- The plan with its inputs exchanged for the given ones. -/
def withInputs? (p : Plan) (inputs : List Plan) : Except RebuildError Plan :=
  match p.root, inputs with
  | .source _, [] => .ok p
  | .source _, _ :: _ => .error .sourceWithInputs
  | .join .., [l, r] => (l.join? r).mapError .join
  | .join .., inputs => .error (.inputCount inputs.length)

/-- What has become of a plan, and whether it has been changed. -/
structure Transformed where
  plan : Plan
  changed : Bool

abbrev Transformation := Plan → Except RebuildError Transformed

/-- The turn of a plan whose inputs have been transformed. If one of them has been changed, they are its
new inputs. -/
def takeTurn (step : Transformation) (p : Plan) (inputs : List Transformed) :
    Except RebuildError Transformed := do
  let changed := inputs.any (·.changed)
  let p ← if changed then p.withInputs? (inputs.map (·.plan)) else pure p
  let result ← step p
  pure { result with changed := changed || result.changed }

/-- A traversal transforms the inputs of a plan from left to right, and then it is the turn of the plan
itself, unless a step has failed. What a step puts in the place of a plan is not traversed again. -/
structure BottomUp (traverse : Transformation → Transformation) : Prop where
  traverse_eq : ∀ step p, traverse step p = p.inputs.mapM (traverse step) >>= takeTurn step p

def transformTree (step : Transformation) : (t : PlanTree) → t.Accepted →
    Except RebuildError Transformed
  | .source f, h => takeTurn step ⟨.source f, h⟩ []
  | .join l r shape, h => do
    let l' ← transformTree step l h.1
    let r' ← transformTree step r h.2.1
    takeTurn step ⟨.join l r shape, h⟩ [l', r']

/-- The traversal along the tree of a plan. -/
def transformUp (step : Transformation) (p : Plan) : Except RebuildError Transformed :=
  transformTree step p.tree p.accepted

/-- Puts `w` in the place of the fragments of a source. -/
def standIn (source : String) (w : Plan) : Transformation := fun p =>
  match p.root with
  | .source f => .ok (if f.source = source then ⟨w, true⟩ else ⟨p, false⟩)
  | .join .. => .ok ⟨p, false⟩

end Plan

end FedPlan
