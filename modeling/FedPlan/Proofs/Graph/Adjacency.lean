import FedPlan.Graph.Basic
import FedPlan.Proofs.Plan.Merging
import FedPlan.WordSet.Membership

/-!
# Adjacency

Each two nodes are compared once, the one that stands first as the left side of a join. This is
enough because plans can be joined in either order, and it makes the two nodes neighbours of each
other.
-/

namespace FedPlan

variable {nodes : List Plan} {adjacency : List WordSet} {a b i j : Nat}

private theorem mem_drop_zipIdx {q : Plan} :
    (q, j) ∈ nodes.zipIdx.drop a ↔ a ≤ j ∧ nodes[j]? = some q := by
  simp only [List.mem_iff_getElem?, List.getElem?_drop, List.getElem?_zipIdx,
    Option.map_eq_some_iff, Prod.mk.injEq]
  constructor
  · rintro ⟨n, p, hp, rfl, rfl⟩
    simpa using hp
  · rintro ⟨hle, hq⟩
    exact ⟨j - a, q, by simpa [Nat.add_sub_cancel' hle] using hq⟩

theorem mem_joinablePairs : (i, j) ∈ joinablePairs nodes ↔
    i < j ∧ ∃ p q, nodes[i]? = some p ∧ nodes[j]? = some q ∧ p.canJoin q = true := by
  simp only [joinablePairs, List.mem_flatMap, List.mem_map, List.mem_filter, Prod.exists,
    mem_drop_zipIdx, List.mem_zipIdx_iff_getElem?, Prod.mk.injEq]
  constructor
  · rintro ⟨p, _, hp, q, _, ⟨⟨hlt, hq⟩, hjoin⟩, rfl, rfl⟩
    exact ⟨hlt, p, q, hp, hq, hjoin⟩
  · rintro ⟨hlt, p, q, hp, hq, hjoin⟩
    exact ⟨p, i, hp, q, j, ⟨⟨hlt, hq⟩, hjoin⟩, rfl, rfl⟩

private theorem mem_modify_insert : j ∈ (adjacency.modify a (·.insert b))[i]?.getD ∅ ↔
    j ∈ adjacency[i]?.getD ∅ ∨ i < adjacency.length ∧ a = i ∧ b = j := by
  rw [List.getElem?_modify]
  rcases h : adjacency[i]? with _ | s
  · have hlen := List.getElem?_eq_none_iff.1 h
    simp [Nat.not_lt.2 hlen]
  · have hlen := (List.getElem?_eq_some_iff.1 h).1
    by_cases ha : a = i
    · simp [ha, hlen, or_comm, eq_comm]
    · simp [ha]

private theorem mem_joinPair : j ∈ (joinPair adjacency (a, b))[i]?.getD ∅ ↔
    j ∈ adjacency[i]?.getD ∅ ∨
      i < adjacency.length ∧ ((a, b) = (i, j) ∨ (a, b) = (j, i)) := by
  simp only [joinPair, mem_modify_insert, List.length_modify, Prod.mk.injEq, or_assoc, ← and_or_left]
  rw [and_comm (a := b = i)]

private theorem mem_foldl_joinPair (pairs : List (Nat × Nat)) :
    j ∈ (pairs.foldl joinPair adjacency)[i]?.getD ∅ ↔
      j ∈ adjacency[i]?.getD ∅ ∨
        i < adjacency.length ∧ ((i, j) ∈ pairs ∨ (j, i) ∈ pairs) := by
  induction pairs generalizing adjacency with
  | nil => simp
  | cons pair pairs ih =>
    obtain ⟨a, b⟩ := pair
    have hlen : (joinPair adjacency (a, b)).length = adjacency.length := by simp [joinPair]
    rw [List.foldl_cons, ih, mem_joinPair, hlen, or_assoc, ← and_or_left, List.mem_cons,
      List.mem_cons, eq_comm (b := (a, b)), eq_comm (b := (a, b)), or_or_or_comm]

/-- The comparison of each two nodes in one order finds all neighbours of a node. -/
theorem mem_adjacencyOf : j ∈ (adjacencyOf nodes)[i]?.getD ∅ ↔
    i ≠ j ∧ ∃ p q, nodes[i]? = some p ∧ nodes[j]? = some q ∧ p.canJoin q = true := by
  have hempty : j ∉ (List.replicate nodes.length (∅ : WordSet))[i]?.getD ∅ := by
    rw [List.getElem?_replicate]
    split <;> simp
  have hlt : ∀ p, nodes[i]? = some p → i < nodes.length :=
    fun p hp => (List.getElem?_eq_some_iff.1 hp).1
  rw [adjacencyOf, mem_foldl_joinPair, mem_joinablePairs, mem_joinablePairs, List.length_replicate,
    or_iff_right hempty]
  constructor
  · rintro ⟨_, ⟨hij, h⟩ | ⟨hji, q, p, hq, hp, hjoin⟩⟩
    · exact ⟨Nat.ne_of_lt hij, h⟩
    · exact ⟨Nat.ne_of_gt hji, p, q, hp, hq, by rwa [Plan.canJoin_comm]⟩
  · rintro ⟨hne, p, q, hp, hq, hjoin⟩
    refine ⟨hlt p hp, ?_⟩
    rcases Nat.lt_or_gt_of_ne hne with hij | hji
    · exact .inl ⟨hij, p, q, hp, hq, hjoin⟩
    · exact .inr ⟨hji, q, p, hq, hp, by rwa [Plan.canJoin_comm]⟩

end FedPlan
