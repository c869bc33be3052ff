import FedPlan.Proofs.Graph.Growth
import FedPlan.Query

/-!
# Hops and a chain of them

The simplest fragments, which match one pattern and need no input, and two graphs of three hops in a
row. One of them has the join of the first two as a node already, the other one a second source for
the third hop. A third graph has five hops in a row, and a fourth one has hops that have to be told
where to start, so that the order matters.
-/

namespace FedPlan

/-- What a source tells that answers one pattern between two variables. -/
def FragmentSpec.hop (source : String) (s o : Variable) : FragmentSpec :=
  { source, triples := [⟨.var s, .iri ⟨source⟩, .var o⟩] }

def Fragment.hop (source : String) (s o : Variable) : Fragment where
  source
  signature := (FragmentSpec.hop source s o).signature
  hint := none
  triples_ne_nil := by simp [FragmentSpec.signature, FragmentSpec.hop, List.eraseDups_cons]
  triples_nodup := nodup_eraseDups _
  required_single := fun v hv => absurd hv (VarSet.not_mem_empty v)

namespace Chain

def first : Plan := .source (.hop "a" ⟨"w"⟩ ⟨"x"⟩)

def second : Plan := .source (.hop "b" ⟨"x"⟩ ⟨"y"⟩)

def third : Plan := .source (.hop "c" ⟨"y"⟩ ⟨"z"⟩)

def firstTwo : Plan := (first.join? second).toOption.get (by decide +kernel)

def graph : JoinGraph := .ofNodes ⟨0⟩ [first, second, firstTwo, third]

def query : Query := .ofList (first.triples ++ second.triples ++ third.triples)

/-- The hops one by one, the third one from two sources. -/
def fragments : List Fragment :=
  [.hop "b" ⟨"x"⟩ ⟨"y"⟩, .hop "a" ⟨"w"⟩ ⟨"x"⟩, .hop "c" ⟨"y"⟩ ⟨"z"⟩,
    { Fragment.hop "c" ⟨"y"⟩ ⟨"z"⟩ with source := "d" }]

def hops : JoinGraph := .ofNodes ⟨1⟩ (fragments.map .source)

end Chain

namespace Row

/-- The hops `a`, `b`, `c`, `d` and `e`, each of them adjacent to the next one only. -/
def graph : JoinGraph := .ofNodes ⟨3⟩
  [.source (.hop "a" ⟨"v0"⟩ ⟨"v1"⟩), .source (.hop "b" ⟨"v1"⟩ ⟨"v2"⟩),
    .source (.hop "c" ⟨"v2"⟩ ⟨"v3"⟩), .source (.hop "d" ⟨"v3"⟩ ⟨"v4"⟩),
    .source (.hop "e" ⟨"v4"⟩ ⟨"v5"⟩)]

end Row

/-- A hop of a source that needs the first of the two variables as an input. -/
def Fragment.lookup (source : String) (s o : Variable) (h : s ≠ o) : Fragment where
  source
  signature :=
    { triples := [⟨.var s, .iri ⟨source⟩, .var o⟩]
      results := .ofList [o]
      required := .ofList [s]
      optional := ∅ }
  hint := none
  triples_ne_nil := by simp
  triples_nodup := by simp
  required_single := by simp [h]

namespace Lookups

def titles : Plan := .source (.lookup "titles" ⟨"isbn"⟩ ⟨"title"⟩ (by decide))

def isbns : Plan := .source (.lookup "isbns" ⟨"title"⟩ ⟨"isbn"⟩ (by decide))

def books : Plan := .source (.hop "books" ⟨"book"⟩ ⟨"isbn"⟩)

/-- The titles and the numbers of books can be looked up by each other, and one source lists the
numbers without any input. -/
def graph : JoinGraph := .ofNodes ⟨2⟩ [titles, isbns, books]

end Lookups

end FedPlan
