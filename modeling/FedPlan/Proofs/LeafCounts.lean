import FedPlan.Proofs.Hops
import FedPlan.Proofs.Planning
import Mathlib.Algebra.GroupWithZero.Nat

/-!
# Counting leaves

The check of a plan sets its leaves off against those of the members it was made for. Nothing is left if
and only if every fragment is a leaf of the plan as often as of all members together, and this is to say
that the plan merges the members.
-/

namespace FedPlan

variable {ps : List Plan} {p : Plan} {f : Fragment}

theorem count_foldl_addAll (t : Tally Fragment) :
    (ps.foldl (fun t p => Tally.addAll t p.leaves 1) t).count f =
      t.count f + ((ps.map fun p => p.leaves.count f).sum : Nat) := by
  induction ps generalizing t with
  | nil => simp
  | cons p ps ih =>
    rw [List.foldl_cons, ih, Tally.count_addAll, List.map_cons, List.sum_cons]
    omega

theorem count_leafBalance : (leafBalance ps p).count f =
    ((ps.map fun q => q.leaves.count f).sum : Nat) - (p.leaves.count f : Nat) := by
  simp only [leafBalance, Tally.count_addAll, count_foldl_addAll, Tally.count_empty]
  omega

theorem isBalanced_leafBalance_iff : (leafBalance ps p).isBalanced = true ↔
    ∀ f, p.leaves.count f = (ps.map fun q => q.leaves.count f).sum := by
  rw [Tally.isBalanced_iff]
  refine forall_congr' fun f => ?_
  rw [count_leafBalance]
  omega

theorem Plan.merges_iff_count :
    p.Merges ps ↔ ∀ f, p.leaves.count f = (ps.map fun q => q.leaves.count f).sum := by
  simp only [merges_iff_leaves_perm, List.perm_iff_count, List.count_flatMap, Function.comp_def]

namespace JoinGraph

variable {g : JoinGraph} {s : NodeSet}

theorem verifyPlan_eq (hs : g.Owns s) : g.verifyPlan s p =
    if (leafBalance (g.plansOf s.members) p).isBalanced then .ok ()
    else .error (.wrongPlan s.members) := by
  rw [verifyPlan, membersOf_eq_ok hs]
  rfl

theorem verifyPlan_eq_ok_iff_count (hs : g.Owns s) : g.verifyPlan s p = .ok () ↔
    ∀ f, p.leaves.count f = ((g.plansOf s.members).map fun q => q.leaves.count f).sum := by
  rw [verifyPlan_eq hs, ← isBalanced_leafBalance_iff]
  split
  · next h => simp [h]
  · next h => simp [h]

theorem verifyPlan_eq_ok_iff (hs : g.Owns s) :
    g.verifyPlan s p = .ok () ↔ p.Merges (g.plansOf s.members) := by
  rw [verifyPlan_eq_ok_iff_count hs, Plan.merges_iff_count]

theorem verifyPlan_of_greedyBy {cost : Plan → Cardinality} (hs : g.Owns s)
    (hp : Strategy.greedyBy cost g s = .ok (some p)) : g.verifyPlan s p = .ok () := by
  rw [Strategy.greedyBy_eq cost hs] at hp
  rcases greedyOrder_cases cost (g.plansOf s.members) with ⟨q, hq, _, hmerges, _⟩ | ⟨hnone, _⟩
  · rw [hq] at hp
    cases hp
    exact (verifyPlan_eq_ok_iff hs).2 hmerges
  · rw [hnone] at hp
    cases hp

/-- The check passes if and only if the plan has each fragment as a leaf as often as all members together. It
passes for whatever the greedy strategy plans. -/
theorem verifyPlan_decides (g : JoinGraph) (s : NodeSet) (hs : g.Owns s) (p : Plan) :
    (g.verifyPlan s p = .ok () ↔
      ∀ f, p.leaves.count f = ((g.plansOf s.members).map fun q => q.leaves.count f).sum) ∧
    (g.verifyPlan s p ≠ .ok () → g.verifyPlan s p = .error (.wrongPlan s.members)) ∧
    ∀ cost, Strategy.greedyBy cost g s = .ok (some p) → g.verifyPlan s p = .ok () := by
  refine ⟨verifyPlan_eq_ok_iff_count hs, ?_, fun cost => verifyPlan_of_greedyBy hs⟩
  intro hne
  rw [verifyPlan_eq hs] at hne ⊢
  split
  · next h => exact absurd (if_pos h) hne
  · rfl

/-- One of the two members is the join of the first two hops, so the first hop is needed twice. -/
theorem chain_verifyPlan :
    (∃ p, Chain.first.join? Chain.firstTwo = .ok p ∧
      Chain.graph.verifyPlan (Chain.graph.setOf [0, 2]) p = .ok ()) ∧
    Chain.graph.verifyPlan (Chain.graph.setOf [0, 2]) Chain.firstTwo =
      .error (.wrongPlan (.ofList [0, 2])) := by
  have hs : Chain.graph.Owns (Chain.graph.setOf [0, 2]) := owns_setOf (by decide)
  have hplans : Chain.graph.plansOf (.ofList [0, 2]) = [Chain.first, Chain.firstTwo] := by
    decide +kernel
  constructor
  · obtain ⟨p, hp⟩ : ∃ p, Chain.first.join? Chain.firstTwo = .ok p :=
      Plan.exists_join?_iff.2 (by decide +kernel)
    refine ⟨p, hp, (verifyPlan_decides _ _ hs p).1.2 ?_⟩
    intro f
    show _ = ((Chain.graph.plansOf (.ofList [0, 2])).map _).sum
    rw [hplans, Plan.leaves_of_join? hp, List.count_append]
    rfl
  · refine (verifyPlan_decides _ _ hs _).2.1 ?_
    intro hok
    have hcount := (verifyPlan_decides _ _ hs _).1.1 hok (.hop "a" ⟨"w"⟩ ⟨"x"⟩)
    revert hcount
    decide +kernel

end JoinGraph

end FedPlan
