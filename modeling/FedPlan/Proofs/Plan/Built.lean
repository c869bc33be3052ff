import FedPlan.Plan.Rebuild
import FedPlan.Proofs.Hops
import FedPlan.Proofs.OpenInputs

/-!
# Built plans

Plans are built from the descriptions of fragments, by joins and by giving a plan new inputs, and every
plan can be built so. None of them needs an input that it binds itself or that it merely accepts. So
the open inputs of a set of nodes are what its members need and none of them binds.
-/

namespace FedPlan

variable {v : Variable}

namespace FragmentSpec

/-- A description is accepted if it has a pattern and no needed input is declared a second time. -/
theorem exists_build_iff (spec : FragmentSpec) : (∃ f, spec.build = .ok f) ↔
    spec.triples ≠ [] ∧ ∀ v ∈ spec.required, v ∉ spec.optional ∧ v ∉ spec.signature.results := by
  rw [build]
  split
  · next h => simp [h]
  · next h =>
    dsimp only
    split
    · next v hv =>
      have htwice := List.find?_some hv
      have hreq : v ∈ spec.required := List.mem_of_find?_eq_some hv
      simp only [Bool.or_eq_true, decide_eq_true_eq] at htwice
      constructor
      · rintro ⟨f, hf⟩
        cases hf
      · intro hspec
        obtain ⟨hopt, hres⟩ := hspec.2 v hreq
        exact (htwice.elim hopt hres).elim
    · next hnone =>
      refine ⟨fun _ => ⟨h, fun v hv => ?_⟩, fun _ => ⟨_, rfl⟩⟩
      have hsingle := List.find?_eq_none.1 hnone v hv
      simp only [Bool.or_eq_true, decide_eq_true_eq, not_or] at hsingle
      exact hsingle

end FragmentSpec

namespace Fragment

/-- The description that declares everything as it is. -/
def spec (f : Fragment) : FragmentSpec where
  source := f.source
  triples := f.signature.triples
  results := some f.signature.results
  required := f.signature.required
  optional := f.signature.optional
  hint := f.hint

theorem build_spec (f : Fragment) : f.spec.build = .ok f := by
  obtain ⟨g, hg⟩ := f.spec.exists_build_iff.2 ⟨f.triples_ne_nil, f.required_single⟩
  obtain ⟨hsource, hsignature, hhint⟩ := FragmentSpec.eq_of_build_eq_ok hg
  have hsame : f.spec.signature = f.signature := by
    simp only [FragmentSpec.signature, spec, eraseDups_of_nodup f.triples_nodup, Option.getD_some]
  rw [hg]
  cases f
  cases g
  simp_all [spec]

end Fragment

namespace Plan

/-- The plans that can be made of descriptions of fragments. -/
inductive Built : Plan → Prop
  | source {spec : FragmentSpec} {f : Fragment} (h : spec.build = .ok f) : Built (.source f)
  | join {l r p : Plan} (h : l.join? r = .ok p) (hl : Built l) (hr : Built r) : Built p
  | withInputs {p q : Plan} {inputs : List Plan} (h : p.withInputs? inputs = .ok q) (hp : Built p)
      (hinputs : ∀ i ∈ inputs, Built i) : Built q

theorem built (p : Plan) : p.Built := by
  induction p using Plan.induct with
  | source f => exact .source f.build_spec
  | join l r p h hl hr => exact .join h hl hr

end Plan

/-- No plan needs an input that it binds or merely accepts. So what is open in a set of nodes is what some
member needs and no member binds. -/
theorem inputs_apart :
    (∀ p : Plan, p.Built ∧ (∀ v ∈ p.required, v ∉ p.results) ∧ (∀ v ∈ p.required, v ∉ p.optional) ∧
      p.triples ≠ [] ∧ p.triples.Nodup) ∧
    ∀ (g : JoinGraph) (s : NodeSet), g.Owns s → ∃ inputs, g.openInputs? s = .ok inputs ∧
      ∀ v, v ∈ inputs ↔ (∃ p ∈ g.plansOf s.members, v ∈ p.required) ∧
        ∀ p ∈ g.plansOf s.members, v ∉ p.results := by
  constructor
  · intro p
    exact ⟨p.built, fun v hv => (p.required_single v hv).2, fun v hv => (p.required_single v hv).1,
      p.triples_ne_nil, p.triples_nodup⟩
  · intro g s hs
    exact ⟨_, JoinGraph.openInputs?_eq_ok hs, fun v => JoinGraph.mem_openInputs_iff⟩

/-- Each of the titles and the numbers binds what the other one needs, so nothing is open for the two. -/
theorem Lookups.openInputs_apart :
    graph.Owns (graph.setOf [0, 1]) ∧ graph.Owns (graph.setOf [0]) ∧
    (∃ inputs, graph.openInputs? (graph.setOf [0, 1]) = .ok inputs ∧ ⟨"isbn"⟩ ∉ inputs ∧
      ⟨"title"⟩ ∉ inputs) ∧
    ∃ inputs, graph.openInputs? (graph.setOf [0]) = .ok inputs ∧ ⟨"isbn"⟩ ∈ inputs := by
  have hboth : graph.Owns (graph.setOf [0, 1]) := JoinGraph.owns_setOf (by decide +kernel)
  have htitles : graph.Owns (graph.setOf [0]) := JoinGraph.owns_setOf (by decide +kernel)
  obtain ⟨both, hok, hmem⟩ := inputs_apart.2 _ _ hboth
  obtain ⟨alone, hok', hmem'⟩ := inputs_apart.2 _ _ htitles
  refine ⟨hboth, htitles, ⟨both, hok, ?_, ?_⟩, alone, hok', ?_⟩
  · rw [hmem]
    decide +kernel
  · rw [hmem]
    decide +kernel
  · rw [hmem']
    decide +kernel

end FedPlan
