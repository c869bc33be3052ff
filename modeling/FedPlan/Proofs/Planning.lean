import FedPlan.Proofs.Graph.Growth
import FedPlan.Proofs.Greedy

/-!
# Planning steps

What the steps of planning do to the graph and to the record of the sets the strategy was asked for,
and what is expected of a strategy. The greedy strategy meets it for all costs.
-/

namespace FedPlan

namespace PlanM

variable {α β : Type} {st st' : Planning}

theorem bind_ok {x : PlanM α} {f : α → PlanM β} {a : α} (h : x st = .ok a st') :
    (x >>= f) st = f a st' := by
  show EStateM.bind x f st = _
  rw [EStateM.bind, h]

theorem bind_error {x : PlanM α} {f : α → PlanM β} {e : Failure} (h : x st = .error e st') :
    (x >>= f) st = .error e st' := by
  show EStateM.bind x f st = _
  rw [EStateM.bind, h]

theorem ite_bind {c : Prop} [Decidable c] {x y : PlanM α} {f : α → PlanM β} :
    (if c then x >>= f else y >>= f) = (if c then x else y) >>= f := by
  split <;> rfl

theorem graph_eq (st : Planning) : graph st = .ok st.graph st := rfl

theorem check_ok {r : Except Violation α} {a : α} (h : r = .ok a) (st : Planning) :
    check r st = .ok a st := by
  rw [h]
  rfl

theorem check_error {r : Except Violation α} {v : Violation} (h : r = .error v) (st : Planning) :
    check r st = .error (.violation v) st := by
  rw [h]
  rfl

theorem ask_ok {strategy : Strategy} {s : NodeSet} {o : Option Plan}
    (h : strategy st.graph s = .ok o) :
    ask strategy s st = .ok o { st with asked := st.asked ++ [s] } := by
  show ofExcept (strategy st.graph s) { st with asked := st.asked ++ [s] } = _
  rw [h]
  rfl

theorem ask_error {strategy : Strategy} {s : NodeSet} {e : Failure}
    (h : strategy st.graph s = .error e) :
    ask strategy s st = .error e { st with asked := st.asked ++ [s] } := by
  show ofExcept (strategy st.graph s) { st with asked := st.asked ++ [s] } = _
  rw [h]
  rfl

theorem planSubset_eq_ask {strategy : Strategy} {s : NodeSet} (hs : st.graph.Owns s)
    (hsize : 2 ≤ s.members.size) : planSubset strategy s st = ask strategy s st := by
  obtain ⟨i, j, rest, hlist⟩ := WordSet.two_le_size_iff.1 hsize
  rw [planSubset, bind_ok (graph_eq st),
    bind_ok (check_ok (JoinGraph.requireMember_eq_ok hs) st), hlist]

theorem planSubset_single {strategy : Strategy} {s : NodeSet} {i : Nat} (hs : st.graph.Owns s)
    (hone : s.members.toList = [i]) : planSubset strategy s st = .ok (st.graph.node? i) st := by
  rw [planSubset, bind_ok (graph_eq st),
    bind_ok (check_ok (JoinGraph.requireMember_eq_ok hs) st), hone]
  rfl

end PlanM

namespace Strategy

/-- For sets of at least two nodes, the strategy merges them into a plan if they have an input order,
and otherwise answers that there is none. -/
def Correct (strategy : Strategy) : Prop :=
  ∀ g s, JoinGraph.Owns g s → 2 ≤ s.members.size →
    (∃ p, strategy g s = .ok (some p) ∧ p.Merges (g.plansOf s.members) ∧
      hasInputOrder (g.plansOf s.members) = true) ∨
    strategy g s = .ok none ∧ hasInputOrder (g.plansOf s.members) = false

theorem greedyBy_eq (cost : Plan → Cardinality) {g : JoinGraph} {s : NodeSet} (hs : g.Owns s) :
    greedyBy cost g s = (greedyOrder cost (g.plansOf s.members)).mapError .join := by
  rw [greedyBy, JoinGraph.membersOf_eq_ok hs]
  rfl

theorem greedyBy_cases (cost : Plan → Cardinality) {g : JoinGraph} {s : NodeSet} (hs : g.Owns s)
    (hne : ∃ i, i ∈ s.members) :
    (∃ p, greedyBy cost g s = .ok (some p) ∧ p.Merges (g.plansOf s.members) ∧
      hasInputOrder (g.plansOf s.members) = true) ∨
    greedyBy cost g s = .ok none ∧ hasInputOrder (g.plansOf s.members) = false := by
  obtain ⟨i, hi⟩ := hne
  obtain ⟨p, hp⟩ := JoinGraph.exists_node (hs.holds i hi)
  have hplans : g.plansOf s.members ≠ [] :=
    List.ne_nil_of_mem (JoinGraph.mem_plansOf.2 ⟨i, hi, hp⟩)
  rcases greedyOrder_cases cost (g.plansOf s.members) with ⟨p, hp, horder, hmerges, _⟩ | ⟨hno, hwhy⟩
  · refine .inl ⟨p, ?_, hmerges, horder⟩
    rw [greedyBy_eq cost hs, hp]
    rfl
  · refine .inr ⟨?_, hwhy.resolve_left hplans⟩
    rw [greedyBy_eq cost hs, hno]
    rfl

theorem greedyBy_correct (cost : Plan → Cardinality) : (greedyBy cost).Correct := by
  intro g s hs hsize
  obtain ⟨i, hi, _⟩ := WordSet.exists_mem_of_two_le_size hsize
  exact greedyBy_cases cost hs ⟨i, hi⟩

end Strategy

end FedPlan
