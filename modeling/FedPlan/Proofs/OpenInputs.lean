import FedPlan.Inputs
import FedPlan.Proofs.Graph.Growth

/-!
# Open inputs

Since no plan binds what it needs, the inputs of a set that no other member binds are those that no
member binds at all. They are the inputs of a plan that merges the members.
-/

namespace FedPlan

theorem VarSet.isEmpty_iff_forall {s : VarSet} : s.isEmpty = true ↔ ∀ v, v ∉ s := by
  rw [isEmpty, List.isEmpty_iff, List.eq_nil_iff_forall_not_mem]
  rfl

namespace JoinGraph

variable {g : JoinGraph} {members : WordSet} {s : NodeSet} {v : Variable} {p : Plan}

theorem mem_openInputs : v ∈ g.openInputs members ↔
    ∃ i ∈ members, g.Needs i v ∧ ∀ j ∈ members, j ≠ i → ¬g.Binds j v := by
  simp only [openInputs, VarSet.mem_ofList, List.mem_flatMap, Prod.exists, mem_select,
    List.mem_filter, VarSet.mem_toList, Bool.not_eq_true', List.any_eq_false, Bool.and_eq_true,
    bne_iff_ne, decide_eq_true_eq, Prod.forall, not_and]
  constructor
  · intro h
    obtain ⟨i, p, ⟨hi, hp⟩, hreq, hnot⟩ := h
    refine ⟨i, hi, ⟨p, hp, hreq⟩, ?_⟩
    intro j hj hne hbinds
    obtain ⟨q, hq, hres⟩ := hbinds
    exact hnot j q ⟨hj, hq⟩ hne hres
  · intro h
    obtain ⟨i, hi, ⟨p, hp, hreq⟩, hnot⟩ := h
    refine ⟨i, p, ⟨hi, hp⟩, hreq, ?_⟩
    intro j q hj hne hres
    exact hnot j hj.1 hne ⟨q, hj.2, hres⟩

theorem openInputs_isEmpty_iff : (g.openInputs members).isEmpty = true ↔
    ∀ i ∈ members, ∀ v, g.Needs i v → ∃ j ∈ members, j ≠ i ∧ g.Binds j v := by
  rw [VarSet.isEmpty_iff_forall]
  simp only [mem_openInputs, not_exists, not_and]
  constructor
  · intro h i hi v hneeds
    by_contra hnone
    refine h v i hi hneeds ?_
    intro j hj hne hbinds
    exact hnone ⟨j, hj, hne, hbinds⟩
  · intro h v i hi hneeds hnot
    obtain ⟨j, hj, hne, hbinds⟩ := h i hi v hneeds
    exact hnot j hj hne hbinds

theorem not_binds_of_needs {i : Nat} (h : g.Needs i v) : ¬g.Binds i v := by
  intro hbinds
  obtain ⟨p, hp, hreq⟩ := h
  obtain ⟨q, hq, hres⟩ := hbinds
  cases hp.symm.trans hq
  exact (p.required_single v hreq).2 hres

theorem mem_openInputs_iff : v ∈ g.openInputs members ↔
    (∃ p ∈ g.plansOf members, v ∈ p.required) ∧ ∀ p ∈ g.plansOf members, v ∉ p.results := by
  rw [mem_openInputs]
  constructor
  · intro h
    obtain ⟨i, hi, hneeds, hnot⟩ := h
    obtain ⟨p, hp, hreq⟩ := hneeds
    refine ⟨⟨p, mem_plansOf.2 ⟨i, hi, hp⟩, hreq⟩, ?_⟩
    intro q hq hres
    obtain ⟨j, hj, hq⟩ := mem_plansOf.1 hq
    by_cases hji : j = i
    · exact not_binds_of_needs ⟨p, hp, hreq⟩ ⟨q, hji ▸ hq, hres⟩
    · exact hnot j hj hji ⟨q, hq, hres⟩
  · intro h
    obtain ⟨⟨p, hp, hreq⟩, hnot⟩ := h
    obtain ⟨i, hi, hp⟩ := mem_plansOf.1 hp
    refine ⟨i, hi, ⟨p, hp, hreq⟩, ?_⟩
    intro j hj _ hbinds
    obtain ⟨q, hq, hres⟩ := hbinds
    exact hnot q (mem_plansOf.2 ⟨j, hj, hq⟩) hres

/-- A plan that merges the members needs exactly their open inputs. -/
theorem required_eq_openInputs (h : p.Merges (g.plansOf members)) :
    p.required = g.openInputs members := by
  apply VarSet.ext
  intro v
  rw [h.required, mem_openInputs_iff]

theorem openInputs?_eq_ok (h : g.Owns s) : g.openInputs? s = .ok (g.openInputs s.members) := by
  rw [openInputs?, stray?_eq_none_iff.2 h.holds]

theorem isSatisfied?_eq_ok (h : g.Owns s) :
    g.isSatisfied? s = .ok (g.openInputs s.members).isEmpty := by
  rw [isSatisfied?, openInputs?_eq_ok h]
  rfl

end JoinGraph

end FedPlan
