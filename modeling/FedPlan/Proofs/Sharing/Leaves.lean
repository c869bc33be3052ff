import FedPlan.Proofs.Hops
import FedPlan.Proofs.Sharing.Run

/-!
# Leaves of reduced sets

A reduced set has the leaves of the set it stands for, unless a shared node was put into it although
it had that node as a member already. From then on leaves are missing, for they never come back.
-/

namespace FedPlan

/-- Whether one of the shared nodes, put into the set one after another, is a member of the set
already when its turn comes. -/
def NodeSet.collides (s : NodeSet) : List SharedNode → Bool
  | [] => false
  | n :: ns =>
    (n.members.members.isSubset s.members && s.contains n.position) ||
      (s.replace n.members.members n.position).collides ns

theorem NodeSet.collides_cons {s : NodeSet} {n : SharedNode} {ns : List SharedNode} :
    s.collides (n :: ns) = false ↔
      ((∀ i ∈ n.members.members, i ∈ s.members) → n.position ∉ s.members) ∧
      (s.replace n.members.members n.position).collides ns = false := by
  rw [collides, Bool.or_eq_false_iff, Bool.and_eq_false_imp, WordSet.isSubset_iff,
    Bool.eq_false_iff]
  rfl

namespace JoinGraph

variable {g g' : JoinGraph} {s s' : NodeSet} {ns : List SharedNode} {members : WordSet} {p : Plan}
  {position : Nat}

/-! ## One replacement -/

theorem Substitutes.leavesOf_replace_perm (h : g.Substitutes g' members p position)
    (hs : g.Owns s) (hnew : (∀ i ∈ members, i ∈ s.members) → position ∉ s.members) :
    (g'.leavesOf (s.replace members position).members).Perm (g.leavesOf s.members) := by
  by_cases hsub : ∀ i ∈ members, i ∈ s.members
  · rw [members_replace_of_subset hsub]
    exact h.leavesOf_perm hs.holds hsub (hnew hsub)
  · rw [replace_of_not_subset hsub, h.grows.leavesOf_eq hs.holds]

theorem Substitutes.length_leavesOf_replace_le (h : g.Substitutes g' members p position)
    (hs : g.Owns s) :
    (g'.leavesOf (s.replace members position).members).length ≤ (g.leavesOf s.members).length := by
  by_cases hold : (∀ i ∈ members, i ∈ s.members) ∧ position ∈ s.members
  · rw [members_replace_of_subset hold.1]
    exact Nat.le_of_lt (h.length_leavesOf_lt hs.holds hold.1 hold.2)
  · have hperm := h.leavesOf_replace_perm hs fun hsub hpos => hold ⟨hsub, hpos⟩
    exact Nat.le_of_eq hperm.length_eq

/-! ## All replacements -/

namespace Rewriting

theorem leavesOf_perm (h : Rewriting g s ns g' s') (hs : g.Owns s)
    (hno : s.collides ns = false) : (g'.leavesOf s'.members).Perm (g.leavesOf s.members) := by
  induction h with
  | done => exact .refl _
  | share hnode _ _ _ ih =>
    obtain ⟨hnew, hrest⟩ := NodeSet.collides_cons.1 hno
    exact (ih (hnode.owns_replace hs) hrest).trans (hnode.leavesOf_replace_perm hs hnew)

theorem length_leavesOf_le (h : Rewriting g s ns g' s') (hs : g.Owns s) :
    (g'.leavesOf s'.members).length ≤ (g.leavesOf s.members).length := by
  induction h with
  | done => exact Nat.le_refl _
  | share hnode _ _ _ ih =>
    exact Nat.le_trans (ih (hnode.owns_replace hs)) (hnode.length_leavesOf_replace_le hs)

theorem length_leavesOf_lt (h : Rewriting g s ns g' s') (hs : g.Owns s)
    (hcollides : s.collides ns = true) :
    (g'.leavesOf s'.members).length < (g.leavesOf s.members).length := by
  induction h with
  | done => cases hcollides
  | @share g g' g'' s s' n ns hnode _ _ hrest ih =>
    have howns := hnode.owns_replace hs
    rw [NodeSet.collides, Bool.or_eq_true, Bool.and_eq_true, WordSet.isSubset_iff] at hcollides
    rcases hcollides with ⟨hsub, hpos⟩ | hlater
    · refine Nat.lt_of_le_of_lt (hrest.length_leavesOf_le howns) ?_
      rw [members_replace_of_subset hsub]
      exact hnode.length_leavesOf_lt hs.holds hsub hpos
    · exact Nat.lt_of_lt_of_le (ih howns hlater) (hnode.length_leavesOf_replace_le hs)

theorem leavesOf_perm_iff (h : Rewriting g s ns g' s') (hs : g.Owns s) :
    (g'.leavesOf s'.members).Perm (g.leavesOf s.members) ↔ s.collides ns = false := by
  constructor
  · intro hperm
    rw [Bool.eq_false_iff]
    intro hcollides
    exact Nat.ne_of_lt (h.length_leavesOf_lt hs hcollides) hperm.length_eq
  · exact h.leavesOf_perm hs

end Rewriting

/-! ## Sets without a common leaf -/

/-- No fragment is a leaf of two members. -/
def LeavesApart (g : JoinGraph) (s : WordSet) : Prop :=
  ∀ i ∈ s, ∀ j ∈ s, ∀ p q f, g.node? i = some p → g.node? j = some q →
    f ∈ p.leaves → f ∈ q.leaves → i = j

theorem leavesApart_of_sources {s : WordSet}
    (h : ∀ i ∈ s, ∃ f, g.node? i = some (.source f)) : g.LeavesApart s := by
  intro i hi j hj p q f hp hq hfp hfq
  obtain ⟨a, ha⟩ := h i hi
  obtain ⟨b, hb⟩ := h j hj
  cases hp.symm.trans ha
  cases hq.symm.trans hb
  rw [Plan.leaves_source, List.mem_singleton] at hfp hfq
  subst hfp hfq
  exact position_unique ha hb

theorem leavesApart_of_patternsApart {s : WordSet} (h : g.PatternsApart s) : g.LeavesApart s := by
  intro i hi j hj p q f hp hq hfp hfq
  obtain ⟨t, ht⟩ := List.exists_mem_of_ne_nil _ f.triples_ne_nil
  exact h i hi j hj t ⟨p, hp, Plan.mem_triples_of_mem_leaves hfp ht⟩
    ⟨q, hq, Plan.mem_triples_of_mem_leaves hfq ht⟩

namespace Substitutes

variable {part whole : WordSet}

theorem exists_leaf (h : g.Substitutes g' part p position) {f : Fragment} (hf : f ∈ p.leaves) :
    ∃ m ∈ part, ∃ q, g.node? m = some q ∧ f ∈ q.leaves := by
  obtain ⟨q, hq, hfq⟩ := List.mem_flatMap.1 (h.merges.leaves.subset hf)
  obtain ⟨m, hm, hnode⟩ := mem_plansOf.1 hq
  exact ⟨m, hm, q, hnode, hfq⟩

theorem position_not_mem_of_leavesApart (h : g.Substitutes g' part p position)
    (hwhole : g.Holds whole) (hsub : ∀ n ∈ part, n ∈ whole) (hapart : g.LeavesApart whole) :
    position ∉ whole := by
  -- The plan has a leaf in common with a member of the part, so it is no other member.
  intro hpos
  have hnode : g.node? position = some p := by
    rw [← h.grows.node?_eq (hwhole position hpos), h.node]
  obtain ⟨f, hf⟩ := List.exists_mem_of_ne_nil _ p.leaves_ne_nil
  obtain ⟨m, hm, q, hq, hfq⟩ := h.exists_leaf hf
  have he : position = m := hapart position hpos m (hsub m hm) p q f hnode hq hf hfq
  exact h.position_not_mem (he ▸ hm)

theorem leavesApart_replaced (h : g.Substitutes g' part p position) (hwhole : g.Holds whole)
    (hsub : ∀ n ∈ part, n ∈ whole) (hapart : g.LeavesApart whole) :
    g'.LeavesApart ((whole \ part).insert position) := by
  have hcross : ∀ j ∈ whole \ part, ∀ q f, g'.node? j = some q → f ∈ p.leaves → f ∉ q.leaves := by
    intro j hj q f hq hf hfq
    obtain ⟨hjw, hjp⟩ := WordSet.mem_sdiff.1 hj
    rw [h.grows.node?_eq (hwhole j hjw)] at hq
    obtain ⟨m, hm, r, hr, hfr⟩ := h.exists_leaf hf
    have he : m = j := hapart m (hsub m hm) j hjw r q f hr hq hfr hfq
    exact hjp (he ▸ hm)
  intro i hi j hj a b f ha hb hfa hfb
  rcases WordSet.mem_insert.1 hi with hip | hi
  · rcases WordSet.mem_insert.1 hj with hjp | hj
    · rw [hip, hjp]
    · rw [hip, h.node] at ha
      cases ha
      exact absurd hfb (hcross j hj b f hb hfa)
  · rcases WordSet.mem_insert.1 hj with hjp | hj
    · rw [hjp, h.node] at hb
      cases hb
      exact absurd hfa (hcross i hi a f ha hfb)
    · have hiw := (WordSet.mem_sdiff.1 hi).1
      have hjw := (WordSet.mem_sdiff.1 hj).1
      rw [h.grows.node?_eq (hwhole i hiw)] at ha
      rw [h.grows.node?_eq (hwhole j hjw)] at hb
      exact hapart i hiw j hjw a b f ha hb hfa hfb

theorem leavesApart_replace {s : NodeSet} (h : g.Substitutes g' part p position) (hs : g.Owns s)
    (hapart : g.LeavesApart s.members) : g'.LeavesApart (s.replace part position).members := by
  by_cases hsub : ∀ n ∈ part, n ∈ s.members
  · rw [members_replace_of_subset hsub]
    exact h.leavesApart_replaced hs.holds hsub hapart
  · rw [replace_of_not_subset hsub]
    intro i hi j hj a b f ha hb
    rw [h.grows.node?_eq (hs.holds i hi)] at ha
    rw [h.grows.node?_eq (hs.holds j hj)] at hb
    exact hapart i hi j hj a b f ha hb

end Substitutes

namespace Rewriting

theorem not_collides (h : Rewriting g s ns g' s') (hs : g.Owns s)
    (hapart : g.LeavesApart s.members) : s.collides ns = false := by
  induction h with
  | done => rfl
  | share hnode _ _ _ ih =>
    rw [NodeSet.collides_cons]
    exact ⟨fun hsub => hnode.position_not_mem_of_leavesApart hs.holds hsub hapart,
      ih (hnode.owns_replace hs) (hnode.leavesApart_replace hs hapart)⟩

theorem leavesOf_perm_of_leavesApart (h : Rewriting g s ns g' s') (hs : g.Owns s)
    (hapart : g.LeavesApart s.members) : (g'.leavesOf s'.members).Perm (g.leavesOf s.members) :=
  h.leavesOf_perm hs (h.not_collides hs hapart)

end Rewriting

end JoinGraph

/-- A reduced set keeps its leaves if and only if no shared node collides with it. -/
theorem PlanM.reduce_keeps_leaves_iff (cost : Plan → Cardinality) (g : JoinGraph)
    (asked sets : List NodeSet) (hsets : ∀ s ∈ sets, g.Owns s) :
    ∃ r st, reduce (.greedyBy cost) sets ⟨g, asked⟩ = .ok r st ∧
      r.reduced.length = sets.length ∧
      ∀ (i : Nat) (s s' : NodeSet), sets[i]? = some s → r.reduced[i]? = some s' →
        ((st.graph.leavesOf s'.members).Perm (g.leavesOf s.members) ↔
          s.collides r.shared = false) := by
  obtain ⟨r, st, hrun, hran⟩ :=
    reduce_spec ⟨g, asked⟩ (Strategy.greedyBy_correct cost) hsets
  refine ⟨r, st, hrun, by simp [hran.reduced], ?_⟩
  intro i s s' hs hs'
  exact (hran.rewriting_at hs hs').leavesOf_perm_iff (hsets s (List.mem_of_getElem? hs))

/-- Sets of source fragments keep their leaves, whatever joins the graph has. -/
theorem PlanM.reduce_sources_leaves_perm (cost : Plan → Cardinality) (g : JoinGraph)
    (asked sets : List NodeSet) (hsets : ∀ s ∈ sets, g.Owns s)
    (hsources : ∀ s ∈ sets, ∀ i ∈ s.members, ∃ f, g.node? i = some (.source f)) :
    ∃ r st, reduce (.greedyBy cost) sets ⟨g, asked⟩ = .ok r st ∧
      ∀ (i : Nat) (s s' : NodeSet), sets[i]? = some s → r.reduced[i]? = some s' →
        (st.graph.leavesOf s'.members).Perm (g.leavesOf s.members) := by
  obtain ⟨r, st, hrun, hran⟩ :=
    reduce_spec ⟨g, asked⟩ (Strategy.greedyBy_correct cost) hsets
  refine ⟨r, st, hrun, ?_⟩
  intro i s s' hs hs'
  have hmem : s ∈ sets := List.mem_of_getElem? hs
  exact (hran.rewriting_at hs hs').leavesOf_perm_of_leavesApart (hsets s hmem)
    (JoinGraph.leavesApart_of_sources (hsources s hmem))

/-- Two sets of the chain share its first two hops. The second one keeps its leaves, and the first one,
which has the join of the two as well, does not. -/
theorem PlanM.chain_keeps_leaves :
    ∃ r st s s', reduce (.greedyBy fun _ => .max)
        [Chain.graph.setOf [0, 1, 2], Chain.graph.setOf [0, 1]] ⟨Chain.graph, []⟩ = .ok r st ∧
      r.reduced = [s, s'] ∧
      ¬(st.graph.leavesOf s.members).Perm (Chain.graph.leavesOf (.ofList [0, 1, 2])) ∧
      (st.graph.leavesOf s'.members).Perm (Chain.graph.leavesOf (.ofList [0, 1])) := by
  have hcollides : (match reduce (.greedyBy fun _ => .max)
      [Chain.graph.setOf [0, 1, 2], Chain.graph.setOf [0, 1]] ⟨Chain.graph, []⟩ with
    | .ok r _ => (Chain.graph.setOf [0, 1, 2]).collides r.shared &&
        !(Chain.graph.setOf [0, 1]).collides r.shared
    | .error _ _ => false) = true := by decide +kernel
  have hsets : ∀ s ∈ [Chain.graph.setOf [0, 1, 2], Chain.graph.setOf [0, 1]],
      Chain.graph.Owns s := by
    intro s hs
    rcases List.mem_pair.1 hs with rfl | rfl
    · exact JoinGraph.owns_setOf (by decide)
    · exact JoinGraph.owns_setOf (by decide)
  obtain ⟨r, st, hrun, hlength, hkeeps⟩ :=
    reduce_keeps_leaves_iff (fun _ => .max) Chain.graph [] _ hsets
  obtain ⟨s, s', hreduced⟩ := List.length_eq_two.1 hlength
  rw [hrun, Bool.and_eq_true, Bool.not_eq_true'] at hcollides
  refine ⟨r, st, s, s', hrun, hreduced, fun hperm => ?_, ?_⟩
  · have hnot := (hkeeps 0 _ s rfl (by rw [hreduced]; rfl)).1 hperm
    cases hcollides.1.symm.trans hnot
  · exact (hkeeps 1 _ s' rfl (by rw [hreduced]; rfl)).2 hcollides.2

/-- The first of the sets loses the two hops and keeps their join alone. -/
theorem PlanM.chain_loses_leaves :
    ∃ r st, reduce (.greedyBy fun _ => .max) [Chain.graph.setOf [0, 1, 2], Chain.graph.setOf [0, 1]]
        ⟨Chain.graph, []⟩ = .ok r st ∧
      r.reduced = [Chain.graph.setOf [2], Chain.graph.setOf [2]] ∧
      st.graph.leavesOf (.ofList [2]) = Chain.first.leaves ++ Chain.second.leaves ∧
      ¬(st.graph.leavesOf (.ofList [2])).Perm (Chain.graph.leavesOf (.ofList [0, 1, 2])) := by
  have hrun : (match reduce (.greedyBy fun _ => .max)
      [Chain.graph.setOf [0, 1, 2], Chain.graph.setOf [0, 1]] ⟨Chain.graph, []⟩ with
    | .ok r st => decide (r.reduced = [Chain.graph.setOf [2], Chain.graph.setOf [2]] ∧
        st.graph.leavesOf (.ofList [2]) = Chain.first.leaves ++ Chain.second.leaves ∧
        ¬(st.graph.leavesOf (.ofList [2])).Perm (Chain.graph.leavesOf (.ofList [0, 1, 2])))
    | .error _ _ => false) = true := by decide +kernel
  split at hrun
  · next r st heq => exact ⟨r, st, heq, of_decide_eq_true hrun⟩
  · cases hrun

end FedPlan
