import FedPlan.Proofs.Hops
import FedPlan.Proofs.OpenInputs
import FedPlan.Proofs.Planning

/-!
# Greedy plans

What the greedy strategy answers for a set of nodes. It never fails, no costs lead it into a dead end,
and a plan joins the members and leaves exactly their open inputs.
-/

namespace FedPlan

namespace Strategy

/-- None of the joins is refused. There is a plan if and only if the members have an input order, and it binds
what they bind and needs what is open in the set. -/
theorem greedyBy_complete (cost : Plan → Cardinality) (g : JoinGraph) (s : NodeSet) (hs : g.Owns s)
    (hne : ∃ i, i ∈ s.members) :
    ∃ ps answer, g.membersOf s = .ok ps ∧ greedyBy cost g s = .ok answer ∧
      answer.isSome = hasInputOrder ps ∧
      ∀ p, answer = some p →
        p.leaves.Perm (ps.flatMap Plan.leaves) ∧
        (∀ v, v ∈ p.results ↔ ∃ q ∈ ps, v ∈ q.results) ∧
        g.openInputs? s = .ok p.required := by
  refine ⟨g.plansOf s.members, ?_⟩
  rcases greedyBy_cases cost hs hne with ⟨p, hp, hmerges, horder⟩ | ⟨hnone, hno⟩
  · refine ⟨some p, JoinGraph.membersOf_eq_ok hs, hp, horder.symm, ?_⟩
    rintro _ ⟨⟩
    refine ⟨hmerges.leaves, hmerges.results, ?_⟩
    rw [JoinGraph.openInputs?_eq_ok hs, JoinGraph.required_eq_openInputs hmerges]
  · refine ⟨none, JoinGraph.membersOf_eq_ok hs, hnone, hno.symm, ?_⟩
    rintro _ ⟨⟩

/-- The two lookups, which need each other's results, have no plan. -/
theorem lookups_greedy_complete :
    (∃ p, greedy Lookups.graph (Lookups.graph.setOf [0, 2]) = .ok (some p) ∧
      p.leaves.length = 2 ∧ p.required = ∅) ∧
    greedy Lookups.graph (Lookups.graph.setOf [0, 1]) = .ok none := by
  constructor
  · have hs : Lookups.graph.Owns (Lookups.graph.setOf [0, 2]) := JoinGraph.owns_setOf (by decide)
    obtain ⟨ps, answer, hps, hanswer, hsome, hplan⟩ :=
      greedyBy_complete Plan.estimate _ _ hs ⟨0, by decide⟩
    cases (JoinGraph.membersOf_eq_ok hs).symm.trans hps
    obtain ⟨p, rfl⟩ := Option.isSome_iff_exists.1 (hsome.trans (by decide +kernel))
    obtain ⟨hleaves, _, hopen⟩ := hplan p rfl
    refine ⟨p, hanswer, hleaves.length_eq.trans (by decide +kernel), ?_⟩
    have hclosed : Lookups.graph.openInputs (WordSet.ofList [0, 2]) = ∅ := by decide +kernel
    rw [JoinGraph.openInputs?_eq_ok hs] at hopen
    exact (Except.ok.inj hopen).symm.trans hclosed
  · have hs : Lookups.graph.Owns (Lookups.graph.setOf [0, 1]) := JoinGraph.owns_setOf (by decide)
    obtain ⟨ps, answer, hps, hanswer, hsome, _⟩ :=
      greedyBy_complete Plan.estimate _ _ hs ⟨0, by decide⟩
    cases (JoinGraph.membersOf_eq_ok hs).symm.trans hps
    have hnone : answer.isSome = false := hsome.trans (by decide +kernel)
    cases Option.not_isSome_iff_eq_none.1 (Bool.eq_false_iff.1 hnone)
    exact hanswer

end Strategy

end FedPlan
