import FedPlan.Greedy
import FedPlan.Proofs.Component.SamePlans

/-!
# Conservation

Whatever is asked about the nodes of a graph and about sets of them has the same answer after the
graph has grown. The search for components may find more sets then, but none that is new among those
that have old nodes only.
-/

namespace FedPlan

/-- The graph `g'` answers every question about nodes of `g` as `g` does. -/
structure JoinGraph.Conserves (g g' : JoinGraph) : Prop where
  node? : ∀ i p, g.node? i = some p → g'.node? i = some p
  position? : ∀ p i, g.position? p = some i → g'.position? p = some i
  neighbors : ∀ i j, i < g.size → j < g.size → (j ∈ g'.neighbors i ↔ j ∈ g.neighbors i)
  isConnected? : ∀ s, g.Owns s → g'.isConnected? s = g.isConnected? s
  reach? : ∀ start s, g.Owns s → g'.reach? start s = g.reach? start s
  openInputs? : ∀ s, g.Owns s → g'.openInputs? s = g.openInputs? s
  ordered : ∀ s, g.Owns s →
    (g'.membersOf s).map hasInputOrder = (g.membersOf s).map hasInputOrder
  greedy : ∀ cost s, g.Owns s → Strategy.greedyBy cost g' s = Strategy.greedyBy cost g s
  components : ∀ q,
    ((g'.components q).filter fun s => (g.stray? s).isNone).Perm (g.components q)

variable {g g' : JoinGraph} {q : Query} {s : NodeSet} {start : Nat}

namespace JoinGraph

namespace Grows

theorem isConnected_eq (h : g.Grows g') (hs : g.Holds s.members) :
    g'.isConnected s.members = g.isConnected s.members := by
  rw [Bool.eq_iff_iff, isConnected_iff, isConnected_iff, h.connected_iff hs]

theorem reach_eq (h : g.Grows g') (hs : g.Holds s.members) :
    g'.reach start s.members = g.reach start s.members := by
  apply WordSet.ext
  intro n
  rw [mem_reach, mem_reach, h.linked_iff hs]

theorem membersOf_eq (h : g.Grows g') (hs : g.Owns s) : g'.membersOf s = g.membersOf s := by
  rw [membersOf_eq_ok hs, membersOf_eq_ok (h.owns hs), h.plansOf_eq hs.holds]

theorem isComponent_iff (h : g.Grows g') (hs : g.Owns s) :
    IsComponent g' q s ↔ IsComponent g q s := by
  apply isComponent_iff_of_plansOf_perm _ hs (h.owns hs)
  rw [h.plansOf_eq hs.holds]

theorem mem_components_iff (h : g.Grows g') :
    s ∈ g'.components q ∧ g.stray? s = none ↔ s ∈ g.components q := by
  rw [mem_components, mem_components, stray?_eq_none_iff]
  constructor
  · intro hs
    have howns : g.Owns s := ⟨hs.1.owns.owner.trans h.id_eq, hs.2⟩
    exact (h.isComponent_iff howns).1 hs.1
  · intro hs
    exact ⟨(h.isComponent_iff hs.owns).2 hs, hs.owns.holds⟩

theorem components_perm (h : g.Grows g') (q : Query) :
    ((g'.components q).filter fun s => (g.stray? s).isNone).Perm (g.components q) := by
  refine (List.perm_ext_iff_of_nodup ((components_nodup g' q).filter _)
    (components_nodup g q)).2 fun s => ?_
  rw [List.mem_filter, Option.isNone_iff_eq_none, h.mem_components_iff]

theorem conserves (h : g.Grows g') : g.Conserves g' where
  node? := fun _ _ => h.node?_eq_some
  position? := fun _ _ hp => position?_eq_some_iff.2 (h.node?_eq_some (position?_eq_some_iff.1 hp))
  neighbors := fun _ _ => h.mem_neighbors_iff
  isConnected? := fun s hs => by
    rw [isConnected?_eq_ok hs, isConnected?_eq_ok (h.owns hs), h.isConnected_eq hs.holds]
  reach? := fun start s hs => by
    rw [reach?_eq_ok hs, reach?_eq_ok (h.owns hs), h.reach_eq hs.holds, own, own, h.id_eq]
  openInputs? := fun s hs => by
    rw [openInputs?_eq_ok hs, openInputs?_eq_ok (h.owns hs), h.openInputs_eq hs.holds]
  ordered := fun s hs => by rw [h.membersOf_eq hs]
  greedy := fun cost s hs => by rw [Strategy.greedyBy, Strategy.greedyBy, h.membersOf_eq hs]
  components := h.components_perm

end Grows

end JoinGraph

end FedPlan
