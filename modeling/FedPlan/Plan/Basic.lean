import FedPlan.Plan.Fragment

/-!
# Plans

A plan is a tree of joins over fragments. Every join stores what it derives from its inputs, so the
signature of a plan is at hand at its root. A tree is a plan only if each of its joins is accepted
by `JoinShape.of?` and stores exactly what that returns.
-/

namespace FedPlan

inductive PlanTree where
  | source (fragment : Fragment)
  | join (lhs rhs : PlanTree) (shape : JoinShape)
deriving DecidableEq

namespace PlanTree

def signature : PlanTree → Signature
  | .source f => f.signature
  | .join _ _ shape => shape.signature

def Accepted : PlanTree → Prop
  | .source _ => True
  | .join l r shape =>
    l.Accepted ∧ r.Accepted ∧ JoinShape.of? l.signature r.signature = .ok shape

/-- The fragments from left to right, each as often as it occurs. -/
def leaves : PlanTree → List Fragment
  | .source f => [f]
  | .join l r _ => l.leaves ++ r.leaves

/-- One line for each node, the inputs of a join below it and indented by two more spaces. -/
def lines : PlanTree → List String
  | .source f => [f.text]
  | .join l r shape => shape.text :: (l.lines ++ r.lines).map ("  " ++ ·)

end PlanTree

structure Plan where
  tree : PlanTree
  accepted : tree.Accepted
deriving DecidableEq

namespace Plan

def signature (p : Plan) : Signature := p.tree.signature

def triples (p : Plan) : List TriplePattern := p.signature.triples

def results (p : Plan) : VarSet := p.signature.results

def required (p : Plan) : VarSet := p.signature.required

def optional (p : Plan) : VarSet := p.signature.optional

def mentions (p : Plan) (v : Variable) : Bool := p.signature.mentions v

def canJoin (p q : Plan) : Bool := p.signature.canJoin q.signature

def leaves (p : Plan) : List Fragment := p.tree.leaves

def text (p : Plan) : String := "\n".intercalate p.tree.lines

def source (f : Fragment) : Plan := ⟨.source f, trivial⟩

/-- The plan that evaluates `l` and then `r`. -/
def join? (l r : Plan) : Except JoinError Plan :=
  match h : JoinShape.of? l.signature r.signature with
  | .ok shape => .ok ⟨.join l.tree r.tree shape, l.accepted, r.accepted, h⟩
  | .error e => .error e

@[simp] theorem signature_source (f : Fragment) : (source f).signature = f.signature := rfl

@[simp] theorem leaves_source (f : Fragment) : (source f).leaves = [f] := rfl

/-- A join is made of its inputs and of the shape that their signatures determine. -/
theorem join?_eq_ok_iff {l r p : Plan} :
    l.join? r = .ok p ↔
      ∃ shape, JoinShape.of? l.signature r.signature = .ok shape ∧
        p.tree = .join l.tree r.tree shape := by
  obtain ⟨tree, accepted⟩ := p
  rw [join?]
  split
  · next shape h =>
    constructor
    · intro he
      cases he
      exact ⟨shape, h, rfl⟩
    · intro he
      obtain ⟨shape', h', htree⟩ := he
      cases h.symm.trans h'
      cases htree
      rfl
  · next e h =>
    constructor
    · intro he
      cases he
    · intro he
      obtain ⟨shape, h', _⟩ := he
      cases h.symm.trans h'

theorem leaves_of_join? {l r p : Plan} (h : l.join? r = .ok p) :
    p.leaves = l.leaves ++ r.leaves := by
  obtain ⟨shape, _, htree⟩ := join?_eq_ok_iff.1 h
  simp [leaves, htree, PlanTree.leaves]

/-- Every plan is built from fragments by joins. -/
theorem induct {motive : Plan → Prop} (source : ∀ f, motive (.source f))
    (join : ∀ l r p, l.join? r = .ok p → motive l → motive r → motive p) (p : Plan) : motive p := by
  obtain ⟨tree, accepted⟩ := p
  induction tree with
  | source f => exact source f
  | join l r shape hl hr =>
    obtain ⟨haccL, haccR, hshape⟩ := accepted
    exact join ⟨l, haccL⟩ ⟨r, haccR⟩ _ (join?_eq_ok_iff.2 ⟨shape, hshape, rfl⟩)
      (hl haccL) (hr haccR)

inductive Root where
  | source (fragment : Fragment)
  | join (lhs rhs : Plan) (shape : JoinShape)

def root : Plan → Root
  | ⟨.source f, _⟩ => .source f
  | ⟨.join l r shape, h⟩ => .join ⟨l, h.1⟩ ⟨r, h.2.1⟩ shape

end Plan

end FedPlan
