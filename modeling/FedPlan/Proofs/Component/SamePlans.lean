import FedPlan.Proofs.Component.Exactness
import FedPlan.Proofs.Sharing.Substitution

/-!
# Sets with the same plans

No plan stands at two positions, so what can be said about a set of nodes is said about its plans,
wherever they stand. Sets with the same plans, in one graph or in two, are connected alike, have the
same open inputs and orders, and are components of the same queries.
-/

namespace FedPlan

variable {g g' : JoinGraph} {q : Query} {s s' : NodeSet}

namespace IsComponent

theorem exists_triple_iff (h : IsComponent g q s) {t : TriplePattern} :
    (∃ p ∈ g.plansOf s.members, t ∈ p.triples) ↔ t ∈ q.triples := by
  constructor
  · intro hex
    obtain ⟨p, hp, ht⟩ := hex
    obtain ⟨i, hi, hp⟩ := JoinGraph.mem_plansOf.1 hp
    exact h.matched i hi t ⟨p, hp, ht⟩
  · intro ht
    obtain ⟨i, hi, ⟨p, hp, hit⟩, _⟩ := h.covered t ht
    exact ⟨p, JoinGraph.mem_plansOf.2 ⟨i, hi, hp⟩, hit⟩

theorem openInputs_isEmpty (h : IsComponent g q s) : (g.openInputs s.members).isEmpty = true :=
  JoinGraph.openInputs_isEmpty_iff.2 h.satisfied

/-- What stands for a component is one, if its members match different patterns. -/
theorem of_stands (hs : IsComponent g' q s') (h : g.Stands s.members g' s'.members)
    (howns : g.Owns s) (hapart : g.PatternsApart s.members) : IsComponent g q s := by
  have htriples : ∀ t, (∃ p ∈ g.plansOf s.members, t ∈ p.triples) ↔ t ∈ q.triples :=
    fun t => (h.triples t).symm.trans hs.exists_triple_iff
  refine ⟨howns, ?_, ?_, ?_, h.connected.1 hs.connected, ?_⟩
  · obtain ⟨t, ht⟩ := List.exists_mem_of_ne_nil _ hs.query_ne_nil
    obtain ⟨p, hp, _⟩ := (htriples t).2 ht
    obtain ⟨i, hi, _⟩ := JoinGraph.mem_plansOf.1 hp
    exact ⟨i, hi⟩
  · intro i hi t hit
    obtain ⟨p, hp, ht⟩ := hit
    exact (htriples t).1 ⟨p, JoinGraph.mem_plansOf.2 ⟨i, hi, hp⟩, ht⟩
  · intro t ht
    obtain ⟨p, hp, hpt⟩ := (htriples t).2 ht
    obtain ⟨i, hi, hip⟩ := JoinGraph.mem_plansOf.1 hp
    have hit : g.Matches i t := ⟨p, hip, hpt⟩
    exact ⟨i, hi, hit, fun j hj hjt => hapart j hj i hi t hjt hit⟩
  · rw [← JoinGraph.openInputs_isEmpty_iff, ← h.openInputs]
    exact hs.openInputs_isEmpty

end IsComponent

namespace JoinGraph

variable {a b : WordSet} {i i' j j' : Nat} {p p' : Plan}

theorem plansOf_nodup (g : JoinGraph) (members : WordSet) : (g.plansOf members).Nodup := by
  rw [plansOf_eq_filterMap]
  apply members.nodup_toList.filterMap
  intro i j p hi hj
  exact position_unique hi hj

section

variable (h : (g.plansOf a).Perm (g'.plansOf b))
include h

theorem exists_counterpart (hi : i ∈ a) (hp : g.node? i = some p) :
    ∃ i' ∈ b, g'.node? i' = some p :=
  mem_plansOf.1 (h.mem_iff.1 (mem_plansOf.2 ⟨i, hi, hp⟩))

theorem Linked.counterpart (hlink : g.Linked a i j) (hp : g.node? i = some p)
    (hp' : g'.node? i' = some p) :
    ∀ j' p', j' ∈ b → g.node? j = some p' → g'.node? j' = some p' → g'.Linked b i' j' := by
  induction hlink with
  | refl =>
    intro j' p' _ hj hj'
    cases hp.symm.trans hj
    rw [position_unique hj' hp']
    exact .refl
  | @tail m n _ hstep ih =>
    intro j' p' hj'mem hj hj'
    obtain ⟨hne, pm, pn, hm, hn, hjoin⟩ := mem_neighbors.1 hstep.adjacent
    cases hn.symm.trans hj
    obtain ⟨m', hm'mem, hm'⟩ := exists_counterpart h hstep.left hm
    refine (ih m' pm hm'mem hm hm').tail ⟨hm'mem, hj'mem, mem_neighbors.2 ?_⟩
    refine ⟨?_, pm, p', hm', hj', hjoin⟩
    rintro rfl
    cases hm'.symm.trans hj'
    exact hne (position_unique hm hn)

theorem Connected.of_plansOf_perm (hconn : g.Connected a) (hb : g'.Holds b) : g'.Connected b := by
  intro i' hi' j' hj'
  obtain ⟨p, hip⟩ := exists_node (hb i' hi')
  obtain ⟨p', hjp⟩ := exists_node (hb j' hj')
  obtain ⟨i, hi, hp⟩ := exists_counterpart h.symm hi' hip
  obtain ⟨j, hj, hp'⟩ := exists_counterpart h.symm hj' hjp
  exact (hconn i hi j hj).counterpart h hp hip j' p' hj' hp' hjp

theorem PatternsApart.of_plansOf_perm (hapart : g.PatternsApart a) : g'.PatternsApart b := by
  intro i' hi' j' hj' t hit hjt
  obtain ⟨p, hip, ht⟩ := hit
  obtain ⟨p', hjp, ht'⟩ := hjt
  obtain ⟨i, hi, hp⟩ := exists_counterpart h.symm hi' hip
  obtain ⟨j, hj, hp'⟩ := exists_counterpart h.symm hj' hjp
  cases hapart i hi j hj t ⟨p, hp, ht⟩ ⟨p', hp', ht'⟩
  cases hp.symm.trans hp'
  exact position_unique hip hjp

theorem connected_iff_of_plansOf_perm (ha : g.Holds a) (hb : g'.Holds b) :
    g'.Connected b ↔ g.Connected a := by
  constructor
  · intro hconn
    exact hconn.of_plansOf_perm h.symm ha
  · intro hconn
    exact hconn.of_plansOf_perm h hb

theorem stands_of_plansOf_perm (ha : g.Holds a) (hb : g'.Holds b) : g.Stands a g' b where
  triples := by simp [h.mem_iff]
  results := by simp [h.mem_iff]
  openInputs := by
    apply VarSet.ext
    intro v
    simp [mem_openInputs_iff, h.mem_iff]
  connected := connected_iff_of_plansOf_perm h ha hb
  ordered := (hasInputOrder_perm h).symm

end

theorem isComponent_iff_of_plansOf_perm (h : (g.plansOf s.members).Perm (g'.plansOf s'.members))
    (hs : g.Owns s) (hs' : g'.Owns s') : IsComponent g' q s' ↔ IsComponent g q s := by
  have hstands := stands_of_plansOf_perm h hs.holds hs'.holds
  constructor
  · intro hcomp
    exact hcomp.of_stands hstands hs (hcomp.patternsApart.of_plansOf_perm h.symm)
  · intro hcomp
    exact hcomp.of_stands hstands.symm hs' (hcomp.patternsApart.of_plansOf_perm h)

end JoinGraph

end FedPlan
