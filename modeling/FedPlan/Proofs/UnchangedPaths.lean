import FedPlan.Proofs.Aggregation
import FedPlan.Proofs.Sharing.AnyStrategy

/-!
# Unchanged paths

A path gets smaller whenever a shared node is put into it, so it can never become what it was before.
Hence a path is unchanged exactly if it contains no shared subset, whatever the strategy plans for
these. A path that has at most one node in common with each other path contains none.
-/

namespace FedPlan

/-! ## Replacing -/

namespace NodeSet

variable {s : NodeSet} {members : WordSet} {ns : List SharedNode}

/-- At least two members go and one node comes. -/
theorem size_replace_lt (hsize : 2 ≤ members.size) (hsub : ∀ x ∈ members, x ∈ s.members)
    (position : Nat) : (s.replace members position).members.size < s.members.size := by
  rw [JoinGraph.members_replace_of_subset hsub, WordSet.size_of_subset hsub]
  have hinsert := WordSet.size_insert_le (s.members \ members) position
  omega

theorem replaceAll_cons (n : SharedNode) : s.replaceAll (n :: ns) =
    (s.replace n.members.members n.position).replaceAll ns := rfl

theorem replaceAll_of_not_subset
    (hsub : ∀ n ∈ ns, ¬∀ x ∈ n.members.members, x ∈ s.members) : s.replaceAll ns = s := by
  induction ns with
  | nil => rfl
  | cons n ns ih =>
    obtain ⟨hn, hns⟩ := List.forall_mem_cons.1 hsub
    rw [replaceAll_cons, JoinGraph.replace_of_not_subset hn, ih hns]

theorem replaceAll_cases (hns : ∀ n ∈ ns, 2 ≤ n.members.members.size) :
    (∀ n ∈ ns, ¬∀ x ∈ n.members.members, x ∈ s.members) ∨
      (s.replaceAll ns).members.size < s.members.size := by
  induction ns generalizing s with
  | nil => exact .inl (List.forall_mem_nil _)
  | cons n ns ih =>
    obtain ⟨hn, hns⟩ := List.forall_mem_cons.1 hns
    rw [replaceAll_cons]
    -- What has been put in place of members never makes up for them.
    by_cases hsub : ∀ x ∈ n.members.members, x ∈ s.members
    · have hlt := size_replace_lt hn hsub n.position
      rcases ih hns with hrest | hrest
      · rw [replaceAll_of_not_subset hrest]
        exact .inr hlt
      · exact .inr (Nat.lt_trans hrest hlt)
    · rw [JoinGraph.replace_of_not_subset hsub]
      exact (ih hns).imp_left fun hrest => List.forall_mem_cons.2 ⟨hsub, hrest⟩

theorem members_replaceAll_eq_iff (hns : ∀ n ∈ ns, 2 ≤ n.members.members.size) :
    (s.replaceAll ns).members = s.members ↔
      ∀ n ∈ ns, ¬∀ x ∈ n.members.members, x ∈ s.members := by
  constructor
  · intro he
    refine (replaceAll_cases hns).resolve_right ?_
    rw [he]
    exact Nat.lt_irrefl _
  · intro hsub
    rw [replaceAll_of_not_subset hsub]

end NodeSet

/-! ## Aggregating -/

namespace PlanM

variable {strategy : Strategy} {st st' : Planning} {options : Options} {paths : List NodeSet}
  {a : Aggregation}

theorem aggregate_eq_ok (hrun : aggregate options strategy paths st = .ok a st') :
    (∀ s ∈ paths, st.graph.Owns s) ∧
      ∃ r st₁, reduce strategy paths st = .ok r st₁ ∧ a.shared = r.shared ∧ a.paths = r.reduced := by
  rw [aggregate, bind_ok (graph_eq st)] at hrun
  obtain ⟨_, st₀, hrequire, hrest⟩ := exists_of_bind_ok hrun
  obtain ⟨hpaths, rfl⟩ := check_eq_ok hrequire
  obtain ⟨r, st₁, hreduce, hrest⟩ := exists_of_bind_ok hrest
  refine ⟨fun s hs => JoinGraph.owns_of_requirePath (forM_eq_ok.1 hpaths s hs), r, st₁, hreduce, ?_⟩
  rw [bind_ok (graph_eq st₁)] at hrest
  split at hrest
  · obtain ⟨_, st₂, _, hrest⟩ := exists_of_bind_ok hrest
    cases hrest
    exact ⟨rfl, rfl⟩
  · cases hrest
    exact ⟨rfl, rfl⟩

theorem aggregate_paths_eq (hrun : aggregate options strategy paths st = .ok a st') :
    (∀ n ∈ a.shared, n.members.members ∈ st.graph.candidates paths) ∧
      a.paths = paths.map (·.replaceAll a.shared) := by
  obtain ⟨howns, r, st₁, hreduce, hshared, hreduced⟩ := aggregate_eq_ok hrun
  obtain ⟨hchosen, hreplaced⟩ := reduce_eq_ok howns hreduce
  rw [hshared, hreduced]
  exact ⟨fun n hn => hchosen.subset (List.mem_map_of_mem hn), hreplaced⟩

theorem not_subset_of_candidate {g : JoinGraph} {i : Nat} {s : NodeSet} {c : WordSet}
    (hapart : ∀ (j : Nat) (t : NodeSet), j ≠ i → paths[j]? = some t →
      (s.members ∩ t.members).size ≤ 1) (hc : c ∈ g.candidates paths) :
    ¬∀ x ∈ c, x ∈ s.members := by
  intro hsub
  obtain ⟨j, k, t, u, hne, ht, hu, hall⟩ := JoinGraph.withinTwo_candidates hc
  -- Of two different places, one is not that of the path.
  obtain ⟨l, w, hl, hw, hcw⟩ : ∃ l w, l ≠ i ∧ paths[l]? = some w ∧ ∀ x ∈ c, x ∈ w.members := by
    by_cases hj : j = i
    · exact ⟨k, u, fun hk => hne (hj.trans hk.symm), hu, fun x hx =>
        (WordSet.mem_inter.1 (hall x hx)).2⟩
    · exact ⟨j, t, hj, ht, fun x hx => (WordSet.mem_inter.1 (hall x hx)).1⟩
  have hle : c.size ≤ (s.members ∩ w.members).size := WordSet.size_le_of_subset fun x hx =>
    WordSet.mem_inter.2 ⟨hsub x hx, hcw x hx⟩
  have hone := hapart l w hl hw
  have htwo := JoinGraph.two_le_size_of_mem_candidates hc
  omega

/-- A path keeps its members if and only if it contains the members of no shared node, and it contains none if
it has at most one node in common with each other path. -/
theorem aggregate_unchanged_iff (hrun : aggregate options strategy paths st = .ok a st') :
    a.paths.length = paths.length ∧
    (∀ (i : Nat) (s : NodeSet), paths[i]? = some s → ∃ s', a.paths[i]? = some s' ∧
      (s'.members = s.members ↔ ∀ n ∈ a.shared, ¬∀ x ∈ n.members.members, x ∈ s.members) ∧
      ((∀ (j : Nat) (t : NodeSet), j ≠ i → paths[j]? = some t →
        (s.members ∩ t.members).size ≤ 1) → s' = s)) ∧
    ∀ s, paths = [s] → a.paths = [s] := by
  obtain ⟨hcandidates, hreplaced⟩ := aggregate_paths_eq hrun
  refine ⟨by rw [hreplaced, List.length_map], ?_, ?_⟩
  · intro i s hs
    refine ⟨s.replaceAll a.shared, by rw [hreplaced, List.getElem?_map, hs, Option.map_some],
      NodeSet.members_replaceAll_eq_iff fun n hn =>
        JoinGraph.two_le_size_of_mem_candidates (hcandidates n hn), ?_⟩
    intro hapart
    exact NodeSet.replaceAll_of_not_subset fun n hn =>
      not_subset_of_candidate hapart (hcandidates n hn)
  · intro s hs
    have hapart : ∀ (j : Nat) (t : NodeSet), j ≠ 0 → paths[j]? = some t →
        (s.members ∩ t.members).size ≤ 1 := by
      intro j t hj ht
      simp [hs, hj] at ht
    rw [hreplaced, hs, List.map_singleton, NodeSet.replaceAll_of_not_subset fun n hn =>
      not_subset_of_candidate hapart (hcandidates n hn)]

end PlanM

namespace Row

open PlanM

/-- The first two paths share three hops. The third one has only one hop in common with them. -/
def overlapping : List NodeSet :=
  [graph.setOf [0, 1, 2], graph.setOf [0, 1, 2, 3], graph.setOf [3, 4]]

theorem overlapping_paths :
    ∃ a st, aggregate { verify := false } .greedy overlapping ⟨graph, []⟩ = .ok a st ∧
      a.paths[2]? = some (graph.setOf [3, 4]) ∧
      ∃ n ∈ a.shared, ∀ x ∈ n.members.members, x ∈ WordSet.ofList [0, 1, 2] := by
  have hpasses : (aggregate { verify := false } .greedy overlapping).passes ⟨graph, []⟩
      (fun a _ => decide (a.paths[0]?.map (·.members) = some (.ofList [5]))) = true := by
    decide +kernel
  obtain ⟨a, st, hrun, hfirst⟩ := exists_of_passes hpasses
  obtain ⟨_, hpaths, _⟩ := aggregate_unchanged_iff hrun
  refine ⟨a, st, hrun, ?_, ?_⟩
  · obtain ⟨s', hs', _, hsame⟩ := hpaths 2 (graph.setOf [3, 4]) rfl
    rw [hs', hsame ?_]
    intro j t hj ht
    match j with
    | 0 =>
      cases ht
      decide +kernel
    | 1 =>
      cases ht
      decide +kernel
    | 2 => exact absurd rfl hj
    | j + 3 => cases ht
  · obtain ⟨s', hs', hmembers, _⟩ := hpaths 0 (graph.setOf [0, 1, 2]) rfl
    have hreplaced : s'.members = .ofList [5] := by
      rw [decide_eq_true_eq, hs', Option.map_some, Option.some.injEq] at hfirst
      exact hfirst
    by_contra hnone
    have hsame : s'.members = .ofList [0, 1, 2] :=
      hmembers.2 fun n hn hsub => hnone ⟨n, hn, hsub⟩
    rw [hreplaced] at hsame
    revert hsame
    decide +kernel

end Row

end FedPlan
