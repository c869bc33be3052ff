import FedPlan.Proofs.InputOrder
import FedPlan.Proofs.OpenInputs
import FedPlan.Proofs.Sharing.Contraction

/-!
# Substitution

A set in which a plan has taken the place of the part that it merges still matches, binds and needs
the same, and it is as connected and as orderable as before. It has the same leaves, unless the plan
was a member of the set already: then the leaves of the part are lost.
-/

namespace FedPlan

namespace JoinGraph

/-- The leaves of all members of a set, each as often as it occurs. -/
def leavesOf (g : JoinGraph) (s : WordSet) : List Fragment := (g.plansOf s).flatMap Plan.leaves

/-- Taken together, the nodes of a set do what those of a set of another graph do. -/
structure Stands (g : JoinGraph) (s : WordSet) (g' : JoinGraph) (s' : WordSet) : Prop where
  triples : ∀ t, (∃ p ∈ g'.plansOf s', t ∈ p.triples) ↔ ∃ p ∈ g.plansOf s, t ∈ p.triples
  results : ∀ v, (∃ p ∈ g'.plansOf s', v ∈ p.results) ↔ ∃ p ∈ g.plansOf s, v ∈ p.results
  openInputs : g'.openInputs s' = g.openInputs s
  connected : g'.Connected s' ↔ g.Connected s
  ordered : hasInputOrder (g'.plansOf s') = hasInputOrder (g.plansOf s)

variable {g g' g'' : JoinGraph} {s s' s'' : WordSet}

theorem Stands.symm (h : g.Stands s g' s') : g'.Stands s' g s where
  triples := fun t => (h.triples t).symm
  results := fun v => (h.results v).symm
  openInputs := h.openInputs.symm
  connected := h.connected.symm
  ordered := h.ordered.symm

theorem Stands.trans (h : g.Stands s g' s') (h' : g'.Stands s' g'' s'') : g.Stands s g'' s'' where
  triples := fun t => (h'.triples t).trans (h.triples t)
  results := fun v => (h'.results v).trans (h.results v)
  openInputs := h'.openInputs.trans h.openInputs
  connected := h'.connected.trans h.connected
  ordered := h'.ordered.trans h.ordered

theorem Grows.openInputs_eq (h : g.Grows g') (hs : g.Holds s) :
    g'.openInputs s = g.openInputs s := by
  apply VarSet.ext
  intro v
  rw [mem_openInputs_iff, mem_openInputs_iff, h.plansOf_eq hs]

theorem Grows.stands (h : g.Grows g') (hs : g.Holds s) : g.Stands s g' s where
  triples := by simp [h.plansOf_eq hs]
  results := by simp [h.plansOf_eq hs]
  openInputs := h.openInputs_eq hs
  connected := h.connected_iff hs
  ordered := by rw [h.plansOf_eq hs]

theorem Grows.leavesOf_eq (h : g.Grows g') (hs : g.Holds s) : g'.leavesOf s = g.leavesOf s := by
  rw [leavesOf, leavesOf, h.plansOf_eq hs]

namespace Substitutes

variable {part whole : WordSet} {p q : Plan} {position : Nat}

/-! ## The plans of the set -/

theorem holds_replaced (h : g.Substitutes g' part p position) (hwhole : g.Holds whole) :
    g'.Holds ((whole \ part).insert position) := by
  intro n hn
  rcases WordSet.mem_insert.1 hn with he | hn
  · exact he ▸ lt_size_of_node? h.node
  · exact h.grows.holds hwhole n (WordSet.mem_sdiff.1 hn).1

theorem holds_rest (hwhole : g.Holds whole) : g.Holds (whole \ part) :=
  fun n hn => hwhole n (WordSet.mem_sdiff.1 hn).1

theorem plansOf_perm (h : g.Substitutes g' part p position) (hwhole : g.Holds whole)
    (hnew : position ∉ whole) :
    (g'.plansOf ((whole \ part).insert position)).Perm (g.plansOf (whole \ part) ++ [p]) := by
  have hnot : position ∉ whole \ part := fun hmem => hnew (WordSet.mem_sdiff.1 hmem).1
  have hperm := plansOf_insert_perm h.node hnot
  rw [h.grows.plansOf_eq (holds_rest hwhole)] at hperm
  exact hperm.trans (List.perm_append_singleton p _).symm

theorem mem_rest (h : g.Substitutes g' part p position) (hold : position ∈ whole) :
    position ∈ whole \ part := WordSet.mem_sdiff.2 ⟨hold, h.position_not_mem⟩

theorem plansOf_eq (h : g.Substitutes g' part p position) (hwhole : g.Holds whole)
    (hold : position ∈ whole) :
    g'.plansOf ((whole \ part).insert position) = g.plansOf (whole \ part) := by
  rw [WordSet.insert_of_mem (h.mem_rest hold), h.grows.plansOf_eq (holds_rest hwhole)]

theorem mem_plansOf_rest (h : g.Substitutes g' part p position) (hwhole : g.Holds whole)
    (hold : position ∈ whole) : p ∈ g.plansOf (whole \ part) := by
  refine mem_plansOf.2 ⟨position, h.mem_rest hold, ?_⟩
  rw [← h.grows.node?_eq (hwhole position hold), h.node]

theorem mem_plansOf_replaced (h : g.Substitutes g' part p position) (hwhole : g.Holds whole) :
    q ∈ g'.plansOf ((whole \ part).insert position) ↔ q ∈ g.plansOf (whole \ part) ∨ q = p := by
  by_cases hpos : position ∈ whole
  · rw [h.plansOf_eq hwhole hpos]
    constructor
    · exact Or.inl
    · intro hq
      rcases hq with hq | hq
      · exact hq
      · exact hq ▸ h.mem_plansOf_rest hwhole hpos
  · rw [(h.plansOf_perm hwhole hpos).mem_iff, List.mem_append, List.mem_singleton]

theorem exists_plan_iff (h : g.Substitutes g' part p position) (hwhole : g.Holds whole)
    (hsub : ∀ n ∈ part, n ∈ whole) {F : Plan → Prop} (hF : F p ↔ ∃ q ∈ g.plansOf part, F q) :
    (∃ q ∈ g'.plansOf ((whole \ part).insert position), F q) ↔ ∃ q ∈ g.plansOf whole, F q := by
  have hsplit : ∀ q, q ∈ g.plansOf whole ↔ q ∈ g.plansOf (whole \ part) ∨ q ∈ g.plansOf part := by
    intro q
    rw [(plansOf_perm_of_subset hsub).mem_iff, List.mem_append]
  simp only [h.mem_plansOf_replaced hwhole, hsplit, or_and_right, exists_or, exists_eq_left, hF]

/-! ## What stays -/

theorem openInputs_eq (h : g.Substitutes g' part p position) (hwhole : g.Holds whole)
    (hsub : ∀ n ∈ part, n ∈ whole) :
    g'.openInputs ((whole \ part).insert position) = g.openInputs whole := by
  apply VarSet.ext
  intro v
  have hresults : (∃ q ∈ g'.plansOf ((whole \ part).insert position), v ∈ q.results) ↔
      ∃ q ∈ g.plansOf whole, v ∈ q.results :=
    h.exists_plan_iff hwhole hsub (h.merges.results v)
  rw [mem_openInputs_iff, mem_openInputs_iff]
  by_cases hbound : ∃ q ∈ g.plansOf whole, v ∈ q.results
  · obtain ⟨q, hq, hres⟩ := hbound
    obtain ⟨q', hq', hres'⟩ := hresults.2 ⟨q, hq, hres⟩
    exact ⟨fun hopen => absurd hres' (hopen.2 q' hq'), fun hopen => absurd hres (hopen.2 q hq)⟩
  · have hnot : ∀ q ∈ g.plansOf whole, v ∉ q.results := fun q hq hres => hbound ⟨q, hq, hres⟩
    have hnot' : ∀ q ∈ g'.plansOf ((whole \ part).insert position), v ∉ q.results :=
      fun q hq hres => hbound (hresults.1 ⟨q, hq, hres⟩)
    have hpart : ∀ q ∈ g.plansOf part, v ∉ q.results := fun q hq =>
      hnot q ((plansOf_perm_of_subset hsub).symm.subset (List.mem_append_right _ hq))
    have hrequired : v ∈ p.required ↔ ∃ q ∈ g.plansOf part, v ∈ q.required := by
      rw [h.merges.required]
      exact and_iff_left hpart
    have hneeds : (∃ q ∈ g'.plansOf ((whole \ part).insert position), v ∈ q.required) ↔
        ∃ q ∈ g.plansOf whole, v ∈ q.required := h.exists_plan_iff hwhole hsub hrequired
    rw [hneeds]
    exact and_congr_right' ⟨fun _ => hnot, fun _ => hnot'⟩

theorem ordered_eq (h : g.Substitutes g' part p position) (hwhole : g.Holds whole)
    (hsub : ∀ n ∈ part, n ∈ whole) (hpart : hasInputOrder (g.plansOf part) = true)
    (hkeep : hasInputOrder (g.plansOf whole) = true →
      hasInputOrder (g.plansOf (whole \ part) ++ [p]) = true) :
    hasInputOrder (g'.plansOf ((whole \ part).insert position)) =
      hasInputOrder (g.plansOf whole) := by
  have hnew : hasInputOrder (g'.plansOf ((whole \ part).insert position)) =
      hasInputOrder (g.plansOf (whole \ part) ++ [p]) := by
    by_cases hpos : position ∈ whole
    · rw [h.plansOf_eq hwhole hpos,
        hasInputOrder_concat_of_mem (h.mem_plansOf_rest hwhole hpos)]
    · exact hasInputOrder_perm (h.plansOf_perm hwhole hpos)
  rw [hnew, Bool.eq_iff_iff]
  constructor
  · intro horder
    rw [hasInputOrder_perm (plansOf_perm_of_subset hsub)]
    exact hasInputOrder_expand h.merges hpart horder
  · exact hkeep

/-- After the replacement, the set stands for what it was before. -/
theorem stands (h : g.Substitutes g' part p position) (hwhole : g.Holds whole)
    (hsub : ∀ n ∈ part, n ∈ whole) (hpart : hasInputOrder (g.plansOf part) = true)
    (hkeep : hasInputOrder (g.plansOf whole) = true →
      hasInputOrder (g.plansOf (whole \ part) ++ [p]) = true) :
    g.Stands whole g' ((whole \ part).insert position) where
  triples := fun t => h.exists_plan_iff hwhole hsub (h.merges.triples t)
  results := fun v => h.exists_plan_iff hwhole hsub (h.merges.results v)
  openInputs := h.openInputs_eq hwhole hsub
  connected := h.connected_iff hwhole hsub
  ordered := h.ordered_eq hwhole hsub hpart hkeep

/-! ## Leaves -/

theorem leavesOf_perm (h : g.Substitutes g' part p position) (hwhole : g.Holds whole)
    (hsub : ∀ n ∈ part, n ∈ whole) (hnew : position ∉ whole) :
    (g'.leavesOf ((whole \ part).insert position)).Perm (g.leavesOf whole) := by
  have hwith : (g'.leavesOf ((whole \ part).insert position)).Perm
      ((g.plansOf (whole \ part)).flatMap Plan.leaves ++ p.leaves) := by
    have := (h.plansOf_perm hwhole hnew).flatMap_right Plan.leaves
    rwa [List.flatMap_append, List.flatMap_singleton] at this
  have hwithout : (g.leavesOf whole).Perm
      ((g.plansOf (whole \ part)).flatMap Plan.leaves ++ (g.plansOf part).flatMap Plan.leaves) := by
    have := (plansOf_perm_of_subset (g := g) hsub).flatMap_right Plan.leaves
    rwa [List.flatMap_append] at this
  exact hwith.trans ((h.merges.leaves.append_left _).trans hwithout.symm)

/-- If the plan was a member already, the leaves of the part are lost. -/
theorem length_leavesOf_lt (h : g.Substitutes g' part p position) (hwhole : g.Holds whole)
    (hsub : ∀ n ∈ part, n ∈ whole) (hold : position ∈ whole) :
    (g'.leavesOf ((whole \ part).insert position)).length < (g.leavesOf whole).length := by
  have hlen : (g.leavesOf whole).length =
      (g.leavesOf (whole \ part)).length + (g.leavesOf part).length := by
    have := ((plansOf_perm_of_subset (g := g) hsub).flatMap_right Plan.leaves).length_eq
    rwa [List.flatMap_append, List.length_append] at this
  have hpos : 0 < (g.leavesOf part).length := by
    rw [leavesOf, ← h.merges.leaves.length_eq]
    exact List.length_pos_iff.2 p.leaves_ne_nil
  have heq : g'.leavesOf ((whole \ part).insert position) = g.leavesOf (whole \ part) := by
    rw [leavesOf, h.plansOf_eq hwhole hold, leavesOf]
  rw [heq, hlen]
  omega

end Substitutes

end JoinGraph

end FedPlan
