import FedPlan.Cardinality
import FedPlan.Distinct
import FedPlan.Plan.Signature

/-!
# Source fragments

A fragment is the part of a query that one source answers. It is described by a `FragmentSpec` and
accepted by `FragmentSpec.build` if it matches some pattern and no input that it needs is declared a
second time as a result or as a merely accepted input.
-/

namespace FedPlan

structure Fragment where
  source : String
  signature : Signature
  /-- The number of results that the source announces. -/
  hint : Option Cardinality
  triples_ne_nil : signature.triples ≠ []
  triples_nodup : signature.triples.Nodup
  required_single : ∀ v ∈ signature.required, v ∉ signature.optional ∧ v ∉ signature.results
deriving DecidableEq

namespace Fragment

def text (f : Fragment) : String :=
  let inputs (verb : String) (vs : VarSet) : String :=
    if vs.isEmpty then "" else " " ++ verb ++ " " ++ vs.text
  "Source[" ++ f.source ++ "]: " ++ TriplePattern.listText f.signature.triples ++
    inputs "requires" f.signature.required ++ inputs "accepts" f.signature.optional

end Fragment

inductive FragmentError where
  | emptyPattern (source : String)
  | conflictingInput (source : String) (v : Variable)
deriving DecidableEq

def FragmentError.message : FragmentError → String
  | .emptyPattern source =>
    "Fragment of source '" ++ source ++ "' does not match any triple pattern"
  | .conflictingInput source v =>
    "Required input " ++ v.text ++ " of source '" ++ source ++
      "' is also an optional input or a result"

/-- The description of a fragment. Without `results`, the fragment binds the variables of its
patterns that it does not need as inputs. -/
structure FragmentSpec where
  source : String
  triples : List TriplePattern
  results : Option VarSet := none
  required : VarSet := ∅
  optional : VarSet := ∅
  hint : Option Cardinality := none

namespace FragmentSpec

def signature (spec : FragmentSpec) : Signature :=
  { triples := spec.triples.eraseDups
    results := spec.results.getD (.ofList (spec.triples.flatMap TriplePattern.vars) \ spec.required)
    required := spec.required
    optional := spec.optional }

/-- Of several variables that are declared twice, the first is reported. -/
def build (spec : FragmentSpec) : Except FragmentError Fragment :=
  if htriples : spec.triples = [] then .error (.emptyPattern spec.source)
  else
    let sig := spec.signature
    match hfind : sig.required.toList.find? fun v => v ∈ sig.optional || v ∈ sig.results with
    | some v => .error (.conflictingInput spec.source v)
    | none => .ok
      { source := spec.source
        signature := sig
        hint := spec.hint
        triples_ne_nil := by
          cases h : spec.triples with
          | nil => exact absurd h htriples
          | cons t ts => simp [sig, signature, h, List.eraseDups_cons]
        triples_nodup := nodup_eraseDups spec.triples
        required_single := by
          intro v hv
          have := List.find?_eq_none.1 hfind v hv
          simpa using this }

theorem eq_of_build_eq_ok {spec : FragmentSpec} {f : Fragment} (h : spec.build = .ok f) :
    f.source = spec.source ∧ f.signature = spec.signature ∧ f.hint = spec.hint := by
  rw [build] at h
  split at h
  · cases h
  · dsimp only at h
    split at h
    · cases h
    · cases h
      exact ⟨rfl, rfl, rfl⟩

end FragmentSpec

end FedPlan
