import FedPlan.Proofs.Hops
import FedPlan.Proofs.Sharing.Candidates

/-!
# Subsets found to be shared

The overlaps of each two sets are recorded one after another. A recorded subset may shrink or be given
up for a candidate, but never both of the two, so that something is recorded as soon as two of the
sets have an overlap that can be shared.
-/

namespace FedPlan

theorem exists_mem_pairs_iff {α : Type} {xs : List α} {R : α → α → Prop}
    (hsymm : ∀ a b, R a b → R b a) : (∃ x ∈ pairs xs, R x.1 x.2) ↔
      ∃ (i j : Nat) (a b : α), i ≠ j ∧ xs[i]? = some a ∧ xs[j]? = some b ∧ R a b := by
  constructor
  · intro h
    obtain ⟨x, hx, hR⟩ := h
    obtain ⟨i, j, hlt, hi, hj⟩ := mem_pairs_iff.1 hx
    exact ⟨i, j, x.1, x.2, Nat.ne_of_lt hlt, hi, hj, hR⟩
  · intro h
    obtain ⟨i, j, a, b, hne, hi, hj, hR⟩ := h
    rcases Nat.lt_or_gt_of_ne hne with hlt | hlt
    · exact ⟨(a, b), mem_pairs_iff.2 ⟨i, j, hlt, hi, hj⟩, hR⟩
    · exact ⟨(b, a), mem_pairs_iff.2 ⟨j, i, hlt, hj, hi⟩, hsymm a b hR⟩

namespace JoinGraph

variable {g : JoinGraph} {s c u : WordSet} {rs cs : List WordSet} {sets : List NodeSet}

/-- A recorded subset and a candidate never both get lost. -/
theorem separate_ne_none (larger smaller : WordSet) :
    g.separate larger smaller ≠ (none, none) := by
  rw [separate]
  split <;> simp

theorem encounter_ne_none (s c : WordSet) : g.encounter s c ≠ (none, none) := by
  rw [encounter, settle]
  split
  · simp
  · split
    · simp
    · split
      · exact separate_ne_none s c
      · intro h
        have hswap := congrArg Prod.swap h
        rw [Prod.swap_swap] at hswap
        exact separate_ne_none c s hswap

theorem record_ne_nil : g.record rs c ≠ [] := by
  induction rs generalizing c with
  | nil => simp [record]
  | cons s rs ih =>
    rw [record_cons]
    rcases hmeet : g.encounter s c with ⟨_ | s', _ | d⟩
    · exact absurd hmeet (encounter_ne_none s c)
    · simp [ih]
    · simp
    · simp

theorem recordAll_eq_nil_iff : cs.foldl g.record [] = [] ↔ cs = [] := by
  rcases List.eq_nil_or_concat cs with rfl | ⟨cs, c, rfl⟩
  · simp
  · simp [record_ne_nil]

theorem sharedSubsets_ne_nil_iff : g.sharedSubsets sets ≠ [] ↔
    ∃ (i j : Nat) (s t : NodeSet), i ≠ j ∧ sets[i]? = some s ∧ sets[j]? = some t ∧
      g.isShareable (s.members ∩ t.members) = true := by
  have hsymm : ∀ s t : NodeSet, g.isShareable (s.members ∩ t.members) = true →
      g.isShareable (t.members ∩ s.members) = true := fun s t h => by
    rwa [WordSet.inter_comm]
  rw [← exists_mem_pairs_iff hsymm, sharedSubsets, ne_eq, recordAll_eq_nil_iff,
    List.filterMap_eq_nil_iff]
  simp [overlap]

/-- The shared subsets are disjoint, connected and contained in two of the sets each. There is one if and only
if some two sets have an overlap that can be shared. -/
theorem sharedSubsets_exact (h : ∀ s ∈ sets, g.Owns s) :
    ∃ us, g.sharedSubsets? sets = .ok us ∧
      (∀ u ∈ us, 2 ≤ u.size ∧ g.Connected u ∧ WithinTwo sets u) ∧ us.Pairwise WordSet.Apart ∧
      (us ≠ [] ↔ ∃ (i j : Nat) (s t : NodeSet), i ≠ j ∧ sets[i]? = some s ∧ sets[j]? = some t ∧
        2 ≤ (s.members ∩ t.members).size ∧ g.Connected (s.members ∩ t.members)) := by
  have hfamily := family_sharedSubsets g sets
  refine ⟨g.sharedSubsets sets, sharedSubsets?_eq_ok h, ?_, hfamily.apart, ?_⟩
  · intro u hu
    obtain ⟨hsize, hconn⟩ := isShareable_iff.1 (hfamily.shareable u hu)
    exact ⟨hsize, hconn, withinTwo_of_mem_sharedSubsets hu⟩
  · simp only [sharedSubsets_ne_nil_iff, isShareable_iff]

end JoinGraph

namespace Row

/-- The first three hops and the last three compete for the one in the middle. -/
def competing : List NodeSet :=
  [graph.setOf [0, 1, 2], graph.setOf [0, 1, 2, 3, 4], graph.setOf [2, 3, 4]]

theorem competing_owned : ∀ s ∈ competing, graph.Owns s := by
  simp only [competing, List.forall_mem_cons, List.not_mem_nil, false_implies, implies_true,
    and_true]
  exact ⟨JoinGraph.owns_setOf (by decide), JoinGraph.owns_setOf (by decide),
    JoinGraph.owns_setOf (by decide)⟩

theorem competing_sharedSubsets :
    graph.sharedSubsets? competing = .ok [.ofList [0, 1, 2], .ofList [3, 4]] ∧
    graph.Connected (.ofList [0, 1, 2]) ∧ JoinGraph.WithinTwo competing (.ofList [3, 4]) ∧
    (WordSet.ofList [0, 1, 2]).Apart (.ofList [3, 4]) := by
  have hfound : graph.sharedSubsets? competing = .ok [.ofList [0, 1, 2], .ofList [3, 4]] := by
    decide +kernel
  obtain ⟨us, hus, hall, hapart, _⟩ := JoinGraph.sharedSubsets_exact competing_owned
  cases hfound.symm.trans hus
  have hfirst := hall (.ofList [0, 1, 2]) (by simp)
  have hsecond := hall (.ofList [3, 4]) (by simp)
  exact ⟨hfound, hfirst.2.1, hsecond.2.2, List.pairwise_pair.1 hapart⟩

end Row

end FedPlan
