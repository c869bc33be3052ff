import FedPlan.Proofs.Graph.Chains
import FedPlan.Proofs.Planning

/-!
# Sets of other graphs

The positions in a set mean nothing to a graph that the set does not belong to. Such a set is turned away
wherever the nodes of a set are walked through, joined or searched, and before anything else is done
with it. The questions for open inputs are the exception: they look at the positions alone, and answer
with the inputs of whatever nodes of the graph happen to stand there.
-/

namespace FedPlan

namespace JoinGraph

variable {g : JoinGraph} {s : NodeSet} {v : Violation}

/-! ## Membership -/

theorem requireMember_eq_foreign_iff : g.requireMember s = .error .foreignSet ↔ s.owner ≠ g.id := by
  rw [requireMember]
  split
  · next hforeign => simp [hforeign]
  · next howner =>
    refine iff_of_false ?_ howner
    split
    · simp
    · simp

theorem membersOf_eq_error_iff : g.membersOf s = .error v ↔ g.requireMember s = .error v := by
  rw [membersOf]
  cases g.requireMember s with
  | error w => simp [bind, Except.bind]
  | ok _ => simp [bind, Except.bind, pure, Except.pure]

theorem restrict_eq_error (h : g.membersOf s = .error v) (id : GraphId) :
    g.restrict id s = .error v := by
  rw [restrict, h]
  rfl

theorem verifyPlan_eq_error (h : g.membersOf s = .error v) (p : Plan) :
    g.verifyPlan s p = .error (.violation v) := by
  rw [verifyPlan, h]
  rfl

theorem planSubset_eq_error (h : g.requireMember s = .error v) (strategy : Strategy)
    (asked : List NodeSet) :
    PlanM.planSubset strategy s ⟨g, asked⟩ = .error (.violation v) ⟨g, asked⟩ := by
  rw [PlanM.planSubset, PlanM.bind_ok (PlanM.graph_eq _), PlanM.bind_error (PlanM.check_error h _)]

/-! ## Walks -/

/-- A member that is no position of the graph is noticed before the two graphs are compared. -/
theorem neighborhood?_of_foreign (h : s.owner ≠ g.id) :
    g.neighborhood? s = .error ((g.stray? s).elim .mixedGraphs .outsideGraph) := by
  rw [neighborhood?]
  cases hstray : g.stray? s with
  | none => simp [NodeSet.diff?, NodeSet.combine, own, h.symm]
  | some i => simp

theorem reach?_of_foreign (h : s.owner ≠ g.id) (start : Nat) :
    g.reach? start s = .error .mixedGraphs := by
  rw [reach?, if_pos h]

theorem isConnected?_of_foreign (h : s.owner ≠ g.id) (hne : ∃ i, i ∈ s.members) :
    g.isConnected? s = .error .mixedGraphs := by
  obtain ⟨i, hi⟩ := hne
  rw [isConnected?]
  split
  · next hnone =>
    rw [s.members.first?_eq_head?, List.head?_eq_none_iff, WordSet.toList_eq_nil_iff] at hnone
    exact absurd hi (hnone i)
  · next start _ =>
    rw [reach?_of_foreign h]
    rfl

/-! ## Open inputs -/

theorem exists_stray_iff : (∃ i, g.stray? s = some i) ↔ ∃ i ∈ s.members, g.size ≤ i := by
  rw [← Option.isSome_iff_exists, stray?, List.find?_isSome]
  simp [WordSet.mem_toList]

theorem exists_openInputs?_error_iff :
    (∃ v, g.openInputs? s = .error v) ↔ ∃ i ∈ s.members, g.size ≤ i := by
  rw [← exists_stray_iff, openInputs?]
  cases g.stray? s with
  | none => simp
  | some i => simp

theorem exists_isSatisfied?_error_iff :
    (∃ v, g.isSatisfied? s = .error v) ↔ ∃ i ∈ s.members, g.size ≤ i := by
  rw [← exists_openInputs?_error_iff, isSatisfied?]
  cases g.openInputs? s with
  | error v => simp [Except.map]
  | ok vs => simp [Except.map]

/-! ## All questions -/

/-- Whatever is asked about the nodes of the set, except for their open inputs, it is answered that the
set belongs to another graph or has a member that is no node. No strategy is asked for a plan. -/
structure TurnsAway (g : JoinGraph) (s : NodeSet) : Prop where
  neighborhood : g.neighborhood? s = .error ((g.stray? s).elim .mixedGraphs .outsideGraph)
  reach : ∀ start, g.reach? start s = .error .mixedGraphs
  connected : g.isConnected? s = .error .mixedGraphs
  members : g.membersOf s = .error .foreignSet
  restrict : ∀ id, g.restrict id s = .error .foreignSet
  plan : ∀ strategy asked, PlanM.planSubset strategy s ⟨g, asked⟩ =
    .error (.violation .foreignSet) ⟨g, asked⟩
  verify : ∀ p, g.verifyPlan s p = .error (.violation .foreignSet)

/-- A set that is not empty is turned away if and only if it is foreign. But its open inputs are told whatever
graph it belongs to, if its members are positions of the graph that is asked. -/
theorem turnsAway_iff_foreign (g : JoinGraph) (s : NodeSet) (hne : ∃ i, i ∈ s.members) :
    (g.TurnsAway s ↔ s.owner ≠ g.id) ∧
    ((∃ v, g.openInputs? s = .error v) ↔ ∃ i ∈ s.members, g.size ≤ i) ∧
    ((∃ v, g.isSatisfied? s = .error v) ↔ ∃ i ∈ s.members, g.size ≤ i) ∧
    g.openInputs? s = g.openInputs? (g.own s.members) ∧
    g.isSatisfied? s = g.isSatisfied? (g.own s.members) := by
  refine ⟨⟨?_, ?_⟩, exists_openInputs?_error_iff, exists_isSatisfied?_error_iff, rfl, rfl⟩
  · intro h
    exact requireMember_eq_foreign_iff.1 (membersOf_eq_error_iff.1 h.members)
  · intro h
    have hmember : g.requireMember s = .error .foreignSet := requireMember_eq_foreign_iff.2 h
    have hmembers : g.membersOf s = .error .foreignSet := membersOf_eq_error_iff.2 hmember
    exact {
      neighborhood := neighborhood?_of_foreign h
      reach := reach?_of_foreign h
      connected := isConnected?_of_foreign h hne
      members := hmembers
      restrict := restrict_eq_error hmembers
      plan := planSubset_eq_error hmember
      verify := verifyPlan_eq_error hmembers }

end JoinGraph

namespace Lookups

/-- There is no node at the position of the last hop in the other graph. -/
theorem hops_turned_away :
    (∃ i, i ∈ (Chain.hops.setOf [0, 3]).members) ∧
    graph.TurnsAway (Chain.hops.setOf [0, 3]) ∧
    (∃ v, graph.openInputs? (Chain.hops.setOf [0, 3]) = .error v) ∧
    ∃ v, graph.isSatisfied? (Chain.hops.setOf [0, 3]) = .error v := by
  have hne : ∃ i, i ∈ (Chain.hops.setOf [0, 3]).members := ⟨0, by decide⟩
  have hstray : ∃ i ∈ (Chain.hops.setOf [0, 3]).members, graph.size ≤ i :=
    ⟨3, by decide, by decide +kernel⟩
  obtain ⟨hturns, hopen, hsat, _⟩ := JoinGraph.turnsAway_iff_foreign graph _ hne
  exact ⟨hne, hturns.2 (by decide), hopen.2 hstray, hsat.2 hstray⟩

/-- The first hop is answered for with the input of the titles, and with the third one it counts as satisfied,
because the books bind that input. -/
theorem hops_answered_for :
    (Chain.hops.setOf [0, 2]).owner ≠ graph.id ∧ (∃ i, i ∈ (Chain.hops.setOf [0, 2]).members) ∧
    graph.openInputs? (Chain.hops.setOf [0]) = .ok (.ofList [⟨"isbn"⟩]) ∧
    ¬(∃ v, graph.openInputs? (Chain.hops.setOf [0, 2]) = .error v) ∧
    ¬∃ v, graph.isSatisfied? (Chain.hops.setOf [0, 2]) = .error v := by
  have hopen : graph.openInputs? (Chain.hops.setOf [0, 2]) = .ok ∅ := by decide +kernel
  have hsat : graph.isSatisfied? (Chain.hops.setOf [0, 2]) = .ok true := by decide +kernel
  refine ⟨by decide, ⟨0, by decide⟩, by decide +kernel, ?_, ?_⟩
  · simp [hopen]
  · simp [hsat]

end Lookups

end FedPlan
