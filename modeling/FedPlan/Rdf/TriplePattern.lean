import FedPlan.Rdf.Term

/-!
# Triple patterns

A triple pattern is answered by a source, matched by a fragment and covered by a component. Its
variables are listed in the order subject, predicate, object, with repetitions.
-/

namespace FedPlan

structure TriplePattern where
  subject : Term
  predicate : Predicate
  object : Term
deriving DecidableEq

namespace TriplePattern

def vars (t : TriplePattern) : List Variable :=
  t.subject.var?.toList ++ t.predicate.var?.toList ++ t.object.var?.toList

theorem mem_vars {t : TriplePattern} {v : Variable} : v ∈ t.vars ↔
    t.subject = .var v ∨ t.predicate = .var v ∨ t.object = .var v := by
  obtain ⟨s, p, o⟩ := t
  cases s <;> cases p <;> cases o <;> simp [vars, Term.var?, Predicate.var?, eq_comm]

def text (t : TriplePattern) : String :=
  t.subject.text ++ " " ++ t.predicate.text ++ " " ++ t.object.text

/-- Patterns that stand side by side are separated by a point. -/
def listText (ts : List TriplePattern) : String := " . ".intercalate (ts.map text)

end TriplePattern

end FedPlan
