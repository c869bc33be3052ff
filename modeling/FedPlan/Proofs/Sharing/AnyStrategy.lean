import FedPlan.Proofs.Outcome
import FedPlan.Proofs.Sharing.Run

/-!
# Reductions with any strategy

A strategy may answer with any plan, or fail. A turn of the reduction that succeeds with it either
changes nothing or puts the plan in place of the candidate, so a run that succeeds has put some of the
candidates into the sets, one after another.
-/

namespace FedPlan

namespace PlanM

variable {strategy : Strategy} {st st' : Planning} {r r' : Reduction} {c : WordSet}
  {cs : List WordSet} {sets : List NodeSet}

/-- A turn that succeeds changes nothing or puts the answered plan in place of the candidate. -/
theorem shareSubset_eq_ok (hrun : shareSubset strategy r c st = .ok r' st') :
    (r' = r ∧ st'.graph = st.graph) ∨
      ∃ p, r' = withShared r (st.graph.own c) (st.graph.add p).2 p ∧
        st'.graph = (st.graph.add p).1 := by
  rw [shareSubset, bind_ok (graph_eq st)] at hrun
  obtain ⟨plan, st₁, hplan, hrest⟩ := exists_of_bind_ok hrun
  have hg₁ : st₁.graph = st.graph := (reads_planSubset _).graph_eq hplan
  cases plan with
  | none =>
    cases hrest
    exact .inl ⟨rfl, hg₁⟩
  | some p =>
    obtain ⟨_, _, hget, hrest⟩ := exists_of_bind_ok hrest
    cases hget
    obtain ⟨kept, ⟨g₂, asked⟩, hcheck, hrest⟩ := exists_of_bind_ok hrest
    have hg₂ : g₂ = st.graph := ((reads_check _).graph_eq hcheck).trans hg₁
    subst hg₂
    cases kept with
    | false =>
      cases hrest
      exact .inl ⟨rfl, rfl⟩
    | true =>
      cases hrest
      exact .inr ⟨p, rfl, rfl⟩

theorem foldlM_shareSubset_eq_ok (hrun : cs.foldlM (shareSubset strategy) r st = .ok r' st') :
    ∃ ns, r'.shared = r.shared ++ ns ∧ (ns.map fun n => n.members.members).Sublist cs ∧
      r'.reduced = r.reduced.map (·.replaceAll ns) := by
  induction cs generalizing r st with
  | nil =>
    cases hrun
    exact ⟨[], by simp, .slnil, by simp [NodeSet.replaceAll]⟩
  | cons c cs ih =>
    rw [List.foldlM_cons] at hrun
    obtain ⟨r₁, st₁, hturn, hrest⟩ := exists_of_bind_ok hrun
    obtain ⟨ns, hshared, hchosen, hreduced⟩ := ih hrest
    rcases shareSubset_eq_ok hturn with ⟨rfl, _⟩ | ⟨p, rfl, _⟩
    · exact ⟨ns, hshared, hchosen.cons c, hreduced⟩
    · refine ⟨{ members := st.graph.own c, position := (st.graph.add p).2, plan := p } :: ns, ?_,
        hchosen.cons_cons c, ?_⟩
      · rw [hshared, withShared, List.append_assoc, List.singleton_append]
      · rw [hreduced, withShared, List.map_map]
        rfl

theorem reduce_eq_ok (hsets : ∀ s ∈ sets, st.graph.Owns s)
    (hrun : reduce strategy sets st = .ok r st') :
    (r.shared.map fun n => n.members.members).Sublist (st.graph.candidates sets) ∧
      r.reduced = sets.map (·.replaceAll r.shared) := by
  rw [reduce_eq hsets] at hrun
  obtain ⟨ns, hshared, hchosen, hreduced⟩ := foldlM_shareSubset_eq_ok hrun
  rw [List.nil_append] at hshared
  exact ⟨hshared ▸ hchosen, hshared ▸ hreduced⟩

end PlanM

end FedPlan
