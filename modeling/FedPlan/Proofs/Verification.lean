import FedPlan.Proofs.Alternatives
import FedPlan.Proofs.Sharing.AnyStrategy

/-!
# Verified plans

The check of a plan compares its leaves with those of the set it was made for, and that is enough:
a plan passes if and only if it merges the members. It is made for what is planned in the end, not
for the shared subsets. If their plans pass as well, each plan of a query joins the fragments of a
component, whatever the strategy answers; if one of them does not, a wrong plan may be returned.
-/

namespace FedPlan

variable {g h : JoinGraph} {s s' : NodeSet} {p : Plan} {strategy : Strategy} {st st' : Planning}
  {options : Options}

namespace JoinGraph

/-- What a run has made of a set of the first graph: a set of the grown graph with the same leaves,
none of them in two members. -/
structure LeavesKept (g : JoinGraph) (s : NodeSet) (h : JoinGraph) (s' : NodeSet) : Prop where
  owns : h.Owns s'
  apart : h.LeavesApart s'.members
  leaves : (h.leavesOf s'.members).Perm (g.leavesOf s.members)

theorem leavesKept_of_isComponent {q : Query} (hs : IsComponent g q s) : g.LeavesKept s g s where
  owns := hs.owns
  apart := leavesApart_of_patternsApart hs.patternsApart
  leaves := .refl _

theorem LeavesKept.replace {h' : JoinGraph} {c : WordSet} {position : Nat}
    (hkept : g.LeavesKept s h s') (hnode : h.Substitutes h' c p position) :
    g.LeavesKept s h' (s'.replace c position) where
  owns := hnode.owns_replace hkept.owns
  apart := hnode.leavesApart_replace hkept.owns hkept.apart
  leaves := (hnode.leavesOf_replace_perm hkept.owns fun hsub =>
    hnode.position_not_mem_of_leavesApart hkept.owns.holds hsub hkept.apart).trans hkept.leaves

end JoinGraph

namespace PlanM

variable {r r' : Reduction} {c : WordSet} {cs : List WordSet} {sets components : List NodeSet}
  {plans : List Plan} {q : Query}

/-! ## Successful runs of any strategy -/

theorem foldlM_leavesKept (hgrows : g.Grows st.graph)
    (hcs : ∀ c ∈ cs, g.Holds c ∧ g.isShareable c = true)
    (hrun : cs.foldlM (shareSubset strategy) r st = .ok r' st')
    (hverified : ∀ n ∈ r'.shared, g.verifyPlan n.members n.plan = .ok ())
    (hkept : List.Forall₂ (fun s s' => g.LeavesKept s st.graph s') sets r.reduced) :
    List.Forall₂ (fun s s' => g.LeavesKept s st'.graph s') sets r'.reduced := by
  induction cs generalizing r st with
  | nil =>
    cases hrun
    exact hkept
  | cons c cs ih =>
    obtain ⟨⟨hc, hshare⟩, hcs⟩ := List.forall_mem_cons.1 hcs
    rw [List.foldlM_cons] at hrun
    obtain ⟨r₁, st₁, hturn, hrest⟩ := exists_of_bind_ok hrun
    rcases shareSubset_eq_ok hturn with ⟨hr₁, hg₁⟩ | ⟨p, hr₁, hg₁⟩
    · exact ih (hg₁ ▸ hgrows) hcs hrest (by rwa [hr₁, hg₁])
    · have hmem : SharedNode.mk (st.graph.own c) (st.graph.add p).2 p ∈ r₁.shared := by
        rw [hr₁]
        exact List.mem_append_right _ (List.mem_singleton.2 rfl)
      -- A node once shared stays among the shared ones, so its plan is one of those that pass.
      have hpass : g.verifyPlan (st.graph.own c) p = .ok () := by
        obtain ⟨ns, hshared, _⟩ := foldlM_shareSubset_eq_ok hrest
        exact hverified _ (hshared ▸ List.mem_append_left ns hmem)
      have howns : g.Owns (st.graph.own c) := ⟨hgrows.id_eq, hc⟩
      have hmerges : p.Merges (st.graph.plansOf c) := by
        rw [hgrows.plansOf_eq hc]
        exact (JoinGraph.verifyPlan_eq_ok_iff howns).1 hpass
      have hnode : st.graph.Substitutes (st.graph.add p).1 c p (st.graph.add p).2 :=
        ⟨JoinGraph.add_grows _ p, hgrows.holds hc, (hgrows.isShareable_eq hc).trans hshare,
          hmerges, JoinGraph.node?_add _ p⟩
      refine ih (hg₁ ▸ hgrows.trans hnode.grows) hcs hrest ?_
      rw [hr₁, hg₁, withShared, List.forall₂_map_right_iff]
      exact hkept.imp fun s s' h => h.replace hnode

theorem reduce_leavesKept (hcomp : ∀ s ∈ components, IsComponent st.graph q s)
    (hrun : reduce strategy components st = .ok r st')
    (hverified : ∀ n ∈ r.shared, st.graph.verifyPlan n.members n.plan = .ok ()) :
    List.Forall₂ (fun s s' => st.graph.LeavesKept s st'.graph s') components r.reduced := by
  have howns : ∀ s ∈ components, st.graph.Owns s := fun s hs => (hcomp s hs).owns
  rw [reduce_eq howns] at hrun
  refine foldlM_leavesKept (.refl _) (JoinGraph.shareable_candidates howns) hrun hverified ?_
  exact List.forall₂_same.2 fun s hs => JoinGraph.leavesKept_of_isComponent (hcomp s hs)

theorem shareComponents_eq_ok
    (hrun : shareComponents options strategy components st = .ok sets st') :
    ∃ r st₁, reduce strategy components st = .ok r st₁ ∧ sets = r.reduced ∧
      st'.graph = st₁.graph := by
  rw [shareComponents_eq] at hrun
  obtain ⟨r, st₁, hreduce, hrest⟩ := exists_of_bind_ok hrun
  obtain ⟨_, st₂, hcheck, hrest⟩ := exists_of_bind_ok hrest
  cases hrest
  exact ⟨r, st₁, hreduce, rfl, (reads_checkReduction options r).graph_eq hcheck⟩

/-- The plans that the reduction of the sets makes for shared subsets pass the check, too. -/
def SharedVerified (strategy : Strategy) (sets : List NodeSet) (st : Planning) : Prop :=
  ∀ r st', reduce strategy sets st = .ok r st' →
    ∀ n ∈ r.shared, st.graph.verifyPlan n.members n.plan = .ok ()

theorem plannedSets_leavesKept (hcomp : ∀ s ∈ components, IsComponent st.graph q s)
    (hrun : plannedSets options strategy components st = .ok sets st')
    (hverified : options.share = true → SharedVerified strategy components st) :
    List.Forall₂ (fun s s' => st.graph.LeavesKept s st'.graph s') components sets := by
  rw [plannedSets] at hrun
  split at hrun
  · next hshare =>
    obtain ⟨r, st₁, hreduce, rfl, hg⟩ := shareComponents_eq_ok hrun
    rw [hg]
    exact reduce_leavesKept hcomp hreduce
      (hverified (Bool.and_eq_true_iff.1 hshare).1 r st₁ hreduce)
  · cases hrun
    exact List.forall₂_same.2 fun s hs => JoinGraph.leavesKept_of_isComponent (hcomp s hs)

theorem planComponent_merges (hverify : options.verify = true) (hs : st.graph.Owns s)
    (hrun : planComponent options strategy s st = .ok (some p) st') :
    p.Merges (st.graph.plansOf s.members) := by
  obtain ⟨plan, st₁, hplan, hrest⟩ := exists_of_bind_ok hrun
  have hg₁ : st₁.graph = st.graph := (reads_planSubset _).graph_eq hplan
  cases plan with
  | none => cases hrest
  | some p' =>
    simp only [hverify, if_true] at hrest
    obtain ⟨_, _, hget, hrest⟩ := exists_of_bind_ok hrest
    cases hget
    obtain ⟨_, st₂, hcheck, hrest⟩ := exists_of_bind_ok hrest
    cases hrest
    rw [← hg₁]
    exact (JoinGraph.verifyPlan_eq_ok_iff (hg₁ ▸ hs)).1 (ofExcept_eq_ok hcheck).1

theorem planSets_leaves_perm (hverify : options.verify = true)
    (hkept : List.Forall₂ (fun s s' => g.LeavesKept s h s') components sets) (hst : st.graph = h)
    (hrun : sets.filterMapM (planComponent options strategy) st = .ok plans st') :
    ∃ cs, cs.Sublist components ∧
      List.Forall₂ (fun s p => p.leaves.Perm (g.leavesOf s.members)) cs plans := by
  induction hkept generalizing st plans with
  | nil =>
    cases hrun
    exact ⟨[], .slnil, .nil⟩
  | @cons s s' components sets hs hkept ih =>
    rw [List.filterMapM_cons] at hrun
    obtain ⟨o, st₁, hplan, hrest⟩ := exists_of_bind_ok hrun
    have hg₁ : st₁.graph = st.graph := (reads_planComponent _ _).graph_eq hplan
    cases o with
    | none =>
      -- The strategy gives up on this component, which is left out.
      obtain ⟨cs, hcs, hperm⟩ := ih (hg₁.trans hst) hrest
      exact ⟨cs, hcs.cons s, hperm⟩
    | some p =>
      obtain ⟨rest, st₂, hplans, hrest⟩ := exists_of_bind_ok hrest
      cases hrest
      obtain ⟨cs, hcs, hperm⟩ := ih (hg₁.trans hst) hplans
      have hmerges := planComponent_merges hverify (hst ▸ hs.owns) hplan
      rw [hst] at hmerges
      exact ⟨s :: cs, hcs.cons_cons s, .cons (hmerges.leaves.trans hs.leaves) hperm⟩

/-- If the plans of shared subsets pass the check as well, the returned plans join the fragments of components,
each component at most once. -/
theorem planQuery_verified (strategy : Strategy) (g : JoinGraph) (q : Query) (asked : List NodeSet)
    (hverify : options.verify = true)
    (hrun : planQuery options strategy q ⟨g, asked⟩ = .ok plans st)
    (hshared : options.share = true → SharedVerified strategy (g.components q) ⟨g, asked⟩) :
    ∃ cs, cs.Sublist (g.components q) ∧
      List.Forall₂ (fun s p => p.leaves.Perm (g.leavesOf s.members)) cs plans := by
  rw [planQuery_eq] at hrun
  obtain ⟨_, st₁, hcheck, hrest⟩ := exists_of_bind_ok hrun
  cases checkComponents_eq_ok hcheck
  obtain ⟨sets, st₂, hsets, hplans⟩ := exists_of_bind_ok hrest
  have hkept := plannedSets_leavesKept (fun s hs => JoinGraph.mem_components.1 hs) hsets hshared
  exact planSets_leaves_perm hverify hkept rfl hplans

/-- The greedy strategy joins the first two hops once for both sources of the third one. -/
theorem hops_verified :
    ∃ plans st, planQuery {} .greedy Chain.query ⟨Chain.hops, []⟩ = .ok plans st ∧
      plans.length = 2 ∧ SharedVerified .greedy (Chain.hops.components Chain.query) ⟨Chain.hops, []⟩ ∧
      ∃ cs, cs.Sublist (Chain.hops.components Chain.query) ∧
        List.Forall₂ (fun s p => p.leaves.Perm (Chain.hops.leavesOf s.members)) cs plans := by
  have hreduce : (reduce .greedy (Chain.hops.components Chain.query)).passes ⟨Chain.hops, []⟩
      (fun r _ => decide (∀ n ∈ r.shared, Chain.hops.verifyPlan n.members n.plan = .ok ())) =
      true := by decide +kernel
  have hplans : (planQuery {} .greedy Chain.query).passes ⟨Chain.hops, []⟩
      (fun plans _ => decide (plans.length = 2)) = true := by decide +kernel
  have hshared : SharedVerified .greedy (Chain.hops.components Chain.query) ⟨Chain.hops, []⟩ := by
    obtain ⟨r₁, st₁, hok, hall⟩ := exists_of_passes hreduce
    intro r st hrun
    cases hok.symm.trans hrun
    exact of_decide_eq_true hall
  obtain ⟨plans, st, hrun, htwo⟩ := exists_of_passes hplans
  exact ⟨plans, st, hrun, of_decide_eq_true htwo, hshared,
    planQuery_verified .greedy Chain.hops Chain.query [] rfl hrun fun _ => hshared⟩

/-- Takes the first of two hops for both, and is greedy for all other sets. -/
def careless : Strategy := fun g s =>
  if s.members = .ofList [0, 1] then .ok (g.node? 0) else Strategy.greedy g s

/-- The plan of the first two hops is not checked, so plans without one of them are accepted in the end. -/
theorem hops_unverified :
    ∃ plans st, planQuery {} careless Chain.query ⟨Chain.hops, []⟩ = .ok plans st ∧
      plans.length = 2 ∧ ∀ p ∈ plans, ∀ s ∈ Chain.hops.components Chain.query,
        ¬p.leaves.Perm (Chain.hops.leavesOf s.members) := by
  have hpasses : (planQuery {} careless Chain.query).passes ⟨Chain.hops, []⟩ (fun plans _ =>
      decide (plans.length = 2 ∧ ∀ p ∈ plans, ∀ s ∈ Chain.hops.components Chain.query,
        ¬p.leaves.Perm (Chain.hops.leavesOf s.members))) = true := by decide +kernel
  obtain ⟨plans, st, hrun, hall⟩ := exists_of_passes hpasses
  exact ⟨plans, st, hrun, of_decide_eq_true hall⟩

end PlanM

end FedPlan
