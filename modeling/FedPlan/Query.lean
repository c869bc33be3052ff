import FedPlan.Distinct
import FedPlan.Rdf.TriplePattern
import FedPlan.VarSet

/-!
# Conjunctive queries

A conjunctive query is a list of triple patterns without repetition. The place of a pattern in
the list is its position; components record which positions they cover.
-/

namespace FedPlan

structure Query where
  triples : List TriplePattern
  nodup : triples.Nodup
deriving DecidableEq

namespace Query

/-- Keeps every pattern at the place of its first appearance. -/
def ofList (ts : List TriplePattern) : Query := ⟨ts.eraseDups, nodup_eraseDups ts⟩

def size (q : Query) : Nat := q.triples.length

def isEmpty (q : Query) : Bool := q.triples.isEmpty

def position? (q : Query) (t : TriplePattern) : Option Nat := q.triples.idxOf? t

def vars (q : Query) : VarSet := .ofList (q.triples.flatMap TriplePattern.vars)

def text (q : Query) : String := "\x7b " ++ TriplePattern.listText q.triples ++ " \x7d"

end Query

end FedPlan
