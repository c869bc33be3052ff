import FedPlan.Proofs.Sharing.Disjointness

/-!
# Contraction

A plan that merges a shareable part of a set is adjacent to what a member of the part is adjacent to.
So a set is connected if and only if it is with the plan in place of the part, even if the plan was
a member of the set before.
-/

namespace FedPlan

namespace JoinGraph

/-- In a grown graph, the node at `position` merges the nodes of a part of the old graph. -/
structure Substitutes (g g' : JoinGraph) (part : WordSet) (p : Plan) (position : Nat) : Prop where
  grows : g.Grows g'
  holds : g.Holds part
  shareable : g.isShareable part = true
  merges : p.Merges (g.plansOf part)
  node : g'.node? position = some p

/-- Where a member of a set is found when the part has been replaced. -/
def contract (part : WordSet) (position n : Nat) : Nat := if n ∈ part then position else n

theorem contract_of_mem {part : WordSet} {position n : Nat} (h : n ∈ part) :
    contract part position n = position := if_pos h

theorem contract_of_not_mem {part : WordSet} {position n : Nat} (h : n ∉ part) :
    contract part position n = n := if_neg h

namespace Substitutes

variable {g g' : JoinGraph} {part whole : WordSet} {p : Plan} {position a b x y : Nat}

theorem exists_mem (h : g.Substitutes g' part p position) : ∃ m, m ∈ part := by
  obtain ⟨i, hi, _⟩ := WordSet.exists_mem_of_two_le_size (isShareable_iff.1 h.shareable).1
  exact ⟨i, hi⟩

/-- The plan has more leaves than each of the plans that it merges, so it is none of them. -/
theorem position_not_mem (h : g.Substitutes g' part p position) : position ∉ part := by
  intro hmem
  obtain ⟨k, hk, hne⟩ :=
    WordSet.exists_mem_ne_of_two_le_size (isShareable_iff.1 h.shareable).1 position
  have hnode : g.node? position = some p := by
    rw [← h.grows.node?_eq (h.holds position hmem), h.node]
  have hperm : (g.plansOf part).Perm (p :: g.plansOf (part.erase position)) :=
    plansOf_erase_perm hnode hmem
  obtain ⟨q, hq⟩ := exists_node (h.holds k hk)
  have hqmem : q ∈ g.plansOf (part.erase position) :=
    mem_plansOf.2 ⟨k, WordSet.mem_erase.2 ⟨hne, hk⟩, hq⟩
  have hrest : (g.plansOf (part.erase position)).flatMap Plan.leaves ≠ [] := by
    obtain ⟨f, hf⟩ := List.exists_mem_of_ne_nil _ q.leaves_ne_nil
    exact List.ne_nil_of_mem (List.mem_flatMap.2 ⟨q, hqmem, hf⟩)
  have hlen := (h.merges.leaves.trans (hperm.flatMap_right Plan.leaves)).length_eq
  rw [List.flatMap_cons, List.length_append] at hlen
  exact hrest (List.length_eq_zero_iff.1 (by omega))

theorem mem_neighbors_iff (h : g.Substitutes g' part p position) (hx : x < g.size)
    (hnot : x ∉ part) (hne : position ≠ x) :
    x ∈ g'.neighbors position ↔ ∃ m ∈ part, x ∈ g.neighbors m := by
  obtain ⟨q, hq⟩ := exists_node hx
  have hq' : g'.node? x = some q := h.grows.node?_eq_some hq
  have hjoin : x ∈ g'.neighbors position ↔ p.canJoin q = true := by
    rw [mem_neighbors]
    constructor
    · intro hadj
      obtain ⟨_, p', q', hp, hx', hjoin⟩ := hadj
      cases h.node.symm.trans hp
      cases hq'.symm.trans hx'
      exact hjoin
    · intro hjoin
      exact ⟨hne, p, q, h.node, hq', hjoin⟩
  rw [hjoin, h.merges.canJoin_iff]
  constructor
  · intro hex
    obtain ⟨r, hr, hjoin⟩ := hex
    obtain ⟨m, hm, hr⟩ := mem_plansOf.1 hr
    have hmx : m ≠ x := fun he => hnot (he ▸ hm)
    exact ⟨m, hm, mem_neighbors.2 ⟨hmx, r, q, hr, hq, hjoin⟩⟩
  · intro hex
    obtain ⟨m, hm, hadj⟩ := hex
    obtain ⟨_, r, q', hr, hx', hjoin⟩ := mem_neighbors.1 hadj
    cases hq.symm.trans hx'
    exact ⟨r, mem_plansOf.2 ⟨m, hm, hr⟩, hjoin⟩

theorem linked_part (h : g.Substitutes g' part p position) (hsub : ∀ n ∈ part, n ∈ whole)
    (ha : a ∈ part) (hb : b ∈ part) : g.Linked whole a b :=
  ((isShareable_iff.1 h.shareable).2 a ha b hb).mono hsub

theorem linked_position (h : g.Substitutes g' part p position) (hwhole : g.Holds whole)
    (hsub : ∀ n ∈ part, n ∈ whole) (hpos : position ∈ whole) (ha : a ∈ part) :
    g.Linked whole a position := by
  obtain ⟨hsize, hconn⟩ := isShareable_iff.1 h.shareable
  obtain ⟨i, hi, j, hj, hij⟩ := WordSet.exists_mem_of_two_le_size hsize
  have hsingle : ∀ n ∈ WordSet.singleton i, n ∈ part :=
    fun n hn => WordSet.mem_singleton.1 hn ▸ hi
  obtain ⟨m, hm, k, hk, _, hadj⟩ := hconn.exists_exit hsingle (WordSet.mem_singleton.2 rfl) hj
    fun he => hij (WordSet.mem_singleton.1 he).symm
  rw [WordSet.mem_singleton.1 hm] at hadj
  obtain ⟨_, r, q, hr, hq, hjoin⟩ := mem_neighbors.1 hadj
  have hnode : g.node? position = some p := by
    rw [← h.grows.node?_eq (hwhole position hpos), h.node]
  have hpq : p.canJoin q = true :=
    (h.merges.canJoin_iff q).2 ⟨r, mem_plansOf.2 ⟨i, hi, hr⟩, hjoin⟩
  have hne : position ≠ k := fun he => h.position_not_mem (he ▸ hk)
  have hstep : g.Within whole k position :=
    ⟨hsub k hk, hpos, mem_neighbors_comm.1 (mem_neighbors.2 ⟨hne, p, q, hnode, hq, hpq⟩)⟩
  exact (h.linked_part hsub ha hk).tail hstep

theorem linked_of_contract_eq (h : g.Substitutes g' part p position) (hwhole : g.Holds whole)
    (hsub : ∀ n ∈ part, n ∈ whole) (ha : a ∈ whole) (hb : b ∈ whole)
    (heq : contract part position a = contract part position b) : g.Linked whole a b := by
  by_cases hap : a ∈ part
  · by_cases hbp : b ∈ part
    · exact h.linked_part hsub hap hbp
    · rw [contract_of_mem hap, contract_of_not_mem hbp] at heq
      exact heq ▸ h.linked_position hwhole hsub (heq ▸ hb) hap
  · by_cases hbp : b ∈ part
    · rw [contract_of_not_mem hap, contract_of_mem hbp] at heq
      exact heq ▸ (h.linked_position hwhole hsub (heq ▸ ha) hbp).symm
    · rw [contract_of_not_mem hap, contract_of_not_mem hbp] at heq
      rw [heq]
      exact .refl

theorem linked_of_adjacent_position (h : g.Substitutes g' part p position)
    (hwhole : g.Holds whole) (hsub : ∀ n ∈ part, n ∈ whole) (ha : a ∈ part) (hb : b ∈ whole)
    (hnot : b ∉ part) (hadj : b ∈ g'.neighbors position) : g.Linked whole a b := by
  obtain ⟨m, hm, hmb⟩ := (h.mem_neighbors_iff (hwhole b hb) hnot (mem_neighbors.1 hadj).1).1 hadj
  exact (h.linked_part hsub ha hm).tail ⟨hsub m hm, hb, hmb⟩

theorem linked_of_adjacent (h : g.Substitutes g' part p position) (hwhole : g.Holds whole)
    (hsub : ∀ n ∈ part, n ∈ whole) (ha : a ∈ whole) (hb : b ∈ whole)
    (hadj : contract part position b ∈ g'.neighbors (contract part position a)) :
    g.Linked whole a b := by
  by_cases hap : a ∈ part
  · by_cases hbp : b ∈ part
    · exact h.linked_part hsub hap hbp
    · rw [contract_of_mem hap, contract_of_not_mem hbp] at hadj
      exact h.linked_of_adjacent_position hwhole hsub hap hb hbp hadj
  · by_cases hbp : b ∈ part
    · rw [contract_of_not_mem hap, contract_of_mem hbp] at hadj
      exact (h.linked_of_adjacent_position hwhole hsub hbp ha hap
        (mem_neighbors_comm.1 hadj)).symm
    · rw [contract_of_not_mem hap, contract_of_not_mem hbp] at hadj
      exact .single ⟨ha, hb, (h.grows.mem_neighbors_iff (hwhole a ha) (hwhole b hb)).1 hadj⟩

theorem contract_mem (ha : a ∈ whole) :
    contract part position a ∈ (whole \ part).insert position := by
  by_cases hap : a ∈ part
  · rw [contract_of_mem hap]
    exact WordSet.mem_insert.2 (.inl rfl)
  · rw [contract_of_not_mem hap]
    exact WordSet.mem_insert.2 (.inr (WordSet.mem_sdiff.2 ⟨ha, hap⟩))

theorem exists_contract (h : g.Substitutes g' part p position) (hsub : ∀ n ∈ part, n ∈ whole)
    (hy : y ∈ (whole \ part).insert position) : ∃ a ∈ whole, contract part position a = y := by
  rcases WordSet.mem_insert.1 hy with hy | hy
  · obtain ⟨m, hm⟩ := h.exists_mem
    exact ⟨m, hsub m hm, (contract_of_mem hm).trans hy.symm⟩
  · obtain ⟨hw, hnot⟩ := WordSet.mem_sdiff.1 hy
    exact ⟨y, hw, contract_of_not_mem hnot⟩

theorem adjacent_contract (h : g.Substitutes g' part p position) (hadj : b ∈ g.neighbors a) :
    contract part position a = contract part position b ∨
      contract part position b ∈ g'.neighbors (contract part position a) := by
  obtain ⟨ha, hb⟩ := lt_size_of_mem_neighbors hadj
  by_cases hap : a ∈ part
  · by_cases hbp : b ∈ part
    · exact .inl ((contract_of_mem hap).trans (contract_of_mem hbp).symm)
    · rw [contract_of_mem hap, contract_of_not_mem hbp]
      by_cases he : position = b
      · exact .inl he
      · exact .inr ((h.mem_neighbors_iff hb hbp he).2 ⟨a, hap, hadj⟩)
  · by_cases hbp : b ∈ part
    · rw [contract_of_not_mem hap, contract_of_mem hbp]
      by_cases he : position = a
      · exact .inl he.symm
      · exact .inr (mem_neighbors_comm.1
          ((h.mem_neighbors_iff ha hap he).2 ⟨b, hbp, mem_neighbors_comm.1 hadj⟩))
    · rw [contract_of_not_mem hap, contract_of_not_mem hbp]
      exact .inr ((h.grows.mem_neighbors_iff ha hb).2 hadj)

theorem linked_contract (h : g.Substitutes g' part p position) (hl : g.Linked whole a b) :
    g'.Linked ((whole \ part).insert position) (contract part position a)
      (contract part position b) := by
  induction hl with
  | refl => exact .refl
  | tail _ hstep ih =>
    rcases h.adjacent_contract hstep.adjacent with he | hadj
    · exact he ▸ ih
    · exact ih.tail ⟨contract_mem hstep.left, contract_mem hstep.right, hadj⟩

theorem linked_of_linked_contract (h : g.Substitutes g' part p position) (hwhole : g.Holds whole)
    (hsub : ∀ n ∈ part, n ∈ whole) (ha : a ∈ whole)
    (hl : g'.Linked ((whole \ part).insert position) (contract part position a) y) (hb : b ∈ whole)
    (hy : contract part position b = y) : g.Linked whole a b := by
  induction hl generalizing b with
  | refl => exact h.linked_of_contract_eq hwhole hsub ha hb hy.symm
  | tail _ hstep ih =>
    obtain ⟨c, hc, hcontract⟩ := h.exists_contract hsub hstep.left
    refine (ih hc hcontract).trans (h.linked_of_adjacent hwhole hsub hc hb ?_)
    rw [hcontract, hy]
    exact hstep.adjacent

/-- Replacing the part neither connects nor disconnects a set that contains it. -/
theorem connected_iff (h : g.Substitutes g' part p position) (hwhole : g.Holds whole)
    (hsub : ∀ n ∈ part, n ∈ whole) :
    g'.Connected ((whole \ part).insert position) ↔ g.Connected whole := by
  constructor
  · intro hconn a ha b hb
    exact h.linked_of_linked_contract hwhole hsub ha
      (hconn _ (contract_mem ha) _ (contract_mem hb)) hb rfl
  · intro hconn x hx y hy
    obtain ⟨a, ha, rfl⟩ := h.exists_contract hsub hx
    obtain ⟨b, hb, rfl⟩ := h.exists_contract hsub hy
    exact h.linked_contract (hconn a ha b hb)

end Substitutes

end JoinGraph

end FedPlan
