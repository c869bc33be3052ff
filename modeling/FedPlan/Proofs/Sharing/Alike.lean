import FedPlan.Proofs.Conservation
import FedPlan.Proofs.Sharing.Run

/-!
# Reduced sets in the grown graph

A reduced set and the set it was made from are compared in one graph, the one that has grown. There
they are both connected or both not, their open inputs are the same, and either both have an input
order or none of them has one.
-/

namespace FedPlan

namespace JoinGraph

variable {g g' : JoinGraph} {s s' : NodeSet} {ns : List SharedNode}

/-- Both sets belong to the graph, which answers all questions about them alike. -/
structure Alike (g : JoinGraph) (s s' : NodeSet) : Prop where
  owns : g.Owns s
  owns_other : g.Owns s'
  connected : g.isConnected? s' = g.isConnected? s
  openInputs : g.openInputs? s' = g.openInputs? s
  ordered : (g.membersOf s').map hasInputOrder = (g.membersOf s).map hasInputOrder

theorem Stands.alike (h : g.Stands s.members g s'.members) (hs : g.Owns s) (hs' : g.Owns s') :
    g.Alike s s' where
  owns := hs
  owns_other := hs'
  connected := by
    have hconn : g.isConnected s'.members = g.isConnected s.members := by
      rw [Bool.eq_iff_iff, isConnected_iff, isConnected_iff, h.connected]
    rw [isConnected?_eq_ok hs, isConnected?_eq_ok hs', hconn]
  openInputs := by rw [openInputs?_eq_ok hs, openInputs?_eq_ok hs', h.openInputs]
  ordered := by
    rw [membersOf_eq_ok hs, membersOf_eq_ok hs']
    exact congrArg Except.ok h.ordered

theorem Rewriting.alike (h : g.Rewriting s ns g' s') (hs : g.Owns s) : g'.Alike s s' := by
  have hgiven : g'.Stands s.members g s.members := (h.grows.stands hs.holds).symm
  exact (hgiven.trans (h.stands hs)).alike (h.grows.owns hs) (h.owns hs)

end JoinGraph

namespace PlanM

/-- The reduction with a greedy strategy does not fail, and in the grown graph each reduced set is
like the given one. -/
theorem reduce_alike (cost : Plan → Cardinality) (g : JoinGraph) (asked sets : List NodeSet)
    (hsets : ∀ s ∈ sets, g.Owns s) :
    ∃ r st, reduce (.greedyBy cost) sets ⟨g, asked⟩ = .ok r st ∧
      g.Grows st.graph ∧ r.reduced.length = sets.length ∧
      ∀ (i : Nat) (s s' : NodeSet), sets[i]? = some s → r.reduced[i]? = some s' →
        st.graph.Alike s s' := by
  obtain ⟨r, st, hrun, hran⟩ :=
    reduce_spec ⟨g, asked⟩ (Strategy.greedyBy_correct cost) hsets
  refine ⟨r, st, hrun, hran.grows, by simp [hran.reduced], ?_⟩
  intro i s s' hs hs'
  exact (hran.rewriting_at hs hs').alike (hsets s (List.mem_of_getElem? hs))

/-- The first two hops are shared by the first two sets, and the third set is not connected. -/
theorem chain_reduce_connected :
    ∃ r st s t u, reduce (.greedyBy fun _ => .max) [Chain.graph.setOf [0, 1, 3],
        Chain.graph.setOf [0, 1, 2], Chain.graph.setOf [0, 3]] ⟨Chain.graph, []⟩ = .ok r st ∧
      r.reduced = [s, t, u] ∧
      st.graph.isConnected? s = .ok true ∧ st.graph.isConnected? u = .ok false := by
  have hsets : ∀ s ∈ [Chain.graph.setOf [0, 1, 3], Chain.graph.setOf [0, 1, 2],
      Chain.graph.setOf [0, 3]], Chain.graph.Owns s := by
    simp only [List.forall_mem_cons, List.not_mem_nil, false_implies, implies_true, and_true]
    exact ⟨JoinGraph.owns_setOf (by decide), JoinGraph.owns_setOf (by decide),
      JoinGraph.owns_setOf (by decide)⟩
  obtain ⟨r, st, hrun, hgrows, hlength, halike⟩ :=
    reduce_alike (fun _ => .max) Chain.graph [] _ hsets
  obtain ⟨s, t, u, hreduced⟩ := List.length_eq_three.1 hlength
  have hs := halike 0 _ s rfl (by rw [hreduced]; rfl)
  have hu := halike 2 _ u rfl (by rw [hreduced]; rfl)
  refine ⟨r, st, s, t, u, hrun, hreduced, hs.connected.trans ?_, hu.connected.trans ?_⟩
  · exact (hgrows.conserves.isConnected? _ (hsets _ (by simp))).trans (by decide +kernel)
  · exact (hgrows.conserves.isConnected? _ (hsets _ (by simp))).trans (by decide +kernel)

end PlanM

end FedPlan
