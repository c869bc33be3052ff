import FedPlan.Proofs.Component.SamePlans
import FedPlan.Proofs.WordSet.Ranks

/-!
# Restriction

A graph that is restricted to a set numbers the members anew: each one stands at its rank in the set.
Apart from the numbers, whatever is asked about members has the same answer, and the components that
are found are those that have members only.
-/

namespace FedPlan

namespace JoinGraph

variable {g r : JoinGraph} {s u : WordSet} {i j k : Nat}

/-- The nodes of `r` are the members of `s`, each one at its rank, and `r` answers questions about
them as `g` does. -/
structure Restricts (g : JoinGraph) (s : WordSet) (r : JoinGraph) : Prop where
  size : r.size = s.size
  node? : ∀ k, k < s.size → ∃ i ∈ s, s.rank i = k ∧ r.node? k = g.node? i
  neighbors : ∀ i ∈ s, ∀ j ∈ s, (s.rank j ∈ r.neighbors (s.rank i) ↔ j ∈ g.neighbors i)
  subsets : ∀ t, r.Owns t → ∃! u, (∀ i ∈ u, i ∈ s) ∧ t = r.own (s.renumber u)
  isConnected? : ∀ u, (∀ i ∈ u, i ∈ s) →
    r.isConnected? (r.own (s.renumber u)) = g.isConnected? (g.own u)
  components : ∀ q, (r.components q).Perm
    (((g.components q).filter fun c => c.members.isSubset s).map fun c =>
      r.own (s.renumber c.members))

section

variable (hnodes : r.nodes = g.plansOf s) (hs : g.Holds s)
include hnodes hs

theorem node?_rank (hi : i ∈ s) : r.node? (s.rank i) = g.node? i := by
  rw [node?, hnodes, getElem?_plansOf hs (WordSet.getElem?_toList_rank hi)]

theorem mem_neighbors_rank (hi : i ∈ s) (hj : j ∈ s) :
    s.rank j ∈ r.neighbors (s.rank i) ↔ j ∈ g.neighbors i := by
  rw [mem_neighbors, mem_neighbors, node?_rank hnodes hs hi, node?_rank hnodes hs hj, Ne,
    WordSet.rank_inj hi hj]

theorem size_restricted : r.size = s.size := by
  rw [size, hnodes, length_plansOf hs]

theorem holds_renumber (hu : ∀ i ∈ u, i ∈ s) : r.Holds (s.renumber u) := by
  intro k hk
  obtain ⟨i, hi, rfl⟩ := WordSet.mem_renumber.1 hk
  obtain ⟨p, hp⟩ := exists_node (hs i (hu i hi))
  exact lt_size_of_node? ((node?_rank hnodes hs (hu i hi)).trans hp)

theorem plansOf_renumber_perm (hu : ∀ i ∈ u, i ∈ s) :
    (g.plansOf u).Perm (r.plansOf (s.renumber u)) := by
  apply (List.perm_ext_iff_of_nodup (plansOf_nodup g u) (plansOf_nodup r _)).2
  intro p
  rw [mem_plansOf, mem_plansOf]
  constructor
  · rintro ⟨i, hi, hp⟩
    exact ⟨s.rank i, WordSet.mem_renumber.2 ⟨i, hi, rfl⟩,
      (node?_rank hnodes hs (hu i hi)).trans hp⟩
  · rintro ⟨k, hk, hp⟩
    obtain ⟨i, hi, rfl⟩ := WordSet.mem_renumber.1 hk
    exact ⟨i, hi, (node?_rank hnodes hs (hu i hi)).symm.trans hp⟩

theorem exists_subset {t : NodeSet} (ht : r.Owns t) :
    ∃ u, (∀ i ∈ u, i ∈ s) ∧ t = r.own (s.renumber u) := by
  have hlt : ∀ k ∈ t.members, k < s.size := by
    intro k hk
    rw [← size_restricted hnodes hs]
    exact ht.holds k hk
  obtain ⟨u, hu, hrenumber⟩ := WordSet.exists_renumber hlt
  exact ⟨u, hu, by rw [← hrenumber, own_members ht]⟩

theorem isConnected?_renumber (hu : ∀ i ∈ u, i ∈ s) :
    r.isConnected? (r.own (s.renumber u)) = g.isConnected? (g.own u) := by
  have hg : g.Holds u := fun i hi => hs i (hu i hi)
  have hr := holds_renumber hnodes hs hu
  have hconn : r.isConnected (s.renumber u) = g.isConnected u := by
    rw [Bool.eq_iff_iff, isConnected_iff, isConnected_iff]
    exact connected_iff_of_plansOf_perm (plansOf_renumber_perm hnodes hs hu) hg hr
  rw [isConnected?_eq_ok (owns_own hr), isConnected?_eq_ok (owns_own hg)]
  exact congrArg Except.ok hconn

theorem mem_components_renumber (q : Query) (hu : ∀ i ∈ u, i ∈ s) :
    r.own (s.renumber u) ∈ r.components q ↔ g.own u ∈ g.components q := by
  rw [mem_components, mem_components]
  exact isComponent_iff_of_plansOf_perm (plansOf_renumber_perm hnodes hs hu)
    (owns_own fun i hi => hs i (hu i hi)) (owns_own (holds_renumber hnodes hs hu))

/-- The search in the restricted graph finds the components that have members only. -/
theorem components_restricted (q : Query) : (r.components q).Perm
    (((g.components q).filter fun c => c.members.isSubset s).map fun c =>
      r.own (s.renumber c.members)) := by
  have hown : ∀ c ∈ g.components q, g.own c.members = c :=
    fun c hc => own_members (mem_components.1 hc).owns
  have hdistinct : (((g.components q).filter fun c => c.members.isSubset s).map fun c =>
      r.own (s.renumber c.members)).Nodup := by
    apply List.Nodup.map_on _ ((components_nodup g q).filter _)
    intro c hc d hd he
    obtain ⟨hc, hcs⟩ := List.mem_filter.1 hc
    obtain ⟨hd, hds⟩ := List.mem_filter.1 hd
    have hmembers := WordSet.renumber_inj (WordSet.isSubset_iff.1 hcs) (WordSet.isSubset_iff.1 hds)
      (congrArg NodeSet.members he)
    rw [← hown c hc, ← hown d hd, hmembers]
  apply (List.perm_ext_iff_of_nodup (components_nodup r q) hdistinct).2
  intro t
  rw [List.mem_map]
  constructor
  · intro ht
    obtain ⟨u, hu, rfl⟩ := exists_subset hnodes hs (mem_components.1 ht).owns
    have hold := (mem_components_renumber hnodes hs q hu).1 ht
    exact ⟨g.own u, List.mem_filter.2 ⟨hold, WordSet.isSubset_iff.2 hu⟩, rfl⟩
  · rintro ⟨c, hc, rfl⟩
    obtain ⟨hc, hsub⟩ := List.mem_filter.1 hc
    apply (mem_components_renumber hnodes hs q (WordSet.isSubset_iff.1 hsub)).2
    rwa [hown c hc]

theorem restricts_of_nodes : g.Restricts s r where
  size := size_restricted hnodes hs
  node? := by
    intro k hk
    obtain ⟨i, hi, hrank⟩ := WordSet.exists_rank hk
    exact ⟨i, hi, hrank, hrank ▸ node?_rank hnodes hs hi⟩
  neighbors := fun _ hi _ hj => mem_neighbors_rank hnodes hs hi hj
  subsets := by
    intro t ht
    obtain ⟨u, hu, rfl⟩ := exists_subset hnodes hs ht
    refine ⟨u, ⟨hu, rfl⟩, ?_⟩
    intro v hv
    exact WordSet.renumber_inj hv.1 hu (congrArg NodeSet.members hv.2).symm
  isConnected? := fun _ hu => isConnected?_renumber hnodes hs hu
  components := components_restricted hnodes hs

end

/-- Apart from the numbers of the nodes, the restriction says what the graph says. -/
theorem exists_restriction (g : JoinGraph) (id : GraphId) (s : NodeSet) (hs : g.Owns s) :
    ∃ r, g.restrict id s = .ok r ∧ r.id = id ∧ g.Restricts s.members r := by
  refine ⟨ofNodes id (g.plansOf s.members), ?_, rfl, ?_⟩
  · rw [restrict, membersOf_eq_ok hs]
    rfl
  · apply restricts_of_nodes _ hs.holds
    rw [nodes_ofNodes, eraseDups_of_nodup (plansOf_nodup g s.members)]

/-- Without the join of the first two hops, the chain has one component. -/
theorem chain_restricts : ∃ r,
    Chain.graph.restrict ⟨1⟩ (Chain.graph.setOf [0, 1, 3]) = .ok r ∧
      r.components Chain.query = [r.setOf [0, 1, 2]] := by
  obtain ⟨r, hr, -, hrestricts⟩ :=
    exists_restriction Chain.graph ⟨1⟩ (Chain.graph.setOf [0, 1, 3]) (owns_setOf (by decide))
  refine ⟨r, hr, List.perm_singleton.1 ((hrestricts.components Chain.query).trans ?_)⟩
  have hfound : (Chain.graph.components Chain.query).filter
      (fun c => c.members.isSubset (.ofList [0, 1, 3])) = [Chain.graph.setOf [0, 1, 3]] := by
    decide +kernel
  have hranks : WordSet.renumber (.ofList [0, 1, 3]) (.ofList [0, 1, 3]) = .ofList [0, 1, 2] := by
    decide +kernel
  show (List.map _ ((Chain.graph.components Chain.query).filter
    fun c => c.members.isSubset (.ofList [0, 1, 3]))).Perm _
  rw [hfound]
  show [r.own (WordSet.renumber (.ofList [0, 1, 3]) (.ofList [0, 1, 3]))].Perm _
  rw [hranks]
  rfl

end JoinGraph

end FedPlan
