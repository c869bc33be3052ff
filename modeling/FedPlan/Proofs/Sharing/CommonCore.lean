import FedPlan.Proofs.Hops
import FedPlan.Proofs.Sharing.Overlaps
import FedPlan.Proofs.Sharing.Run

/-!
# A common core

If each two of the sets have the same members in common, there is only one subset that they can share.
Every pair of sets yields it anew, all sets contain it, and so it is the only one that is planned: either
a node takes its place in all of the sets, or nothing changes at all.
-/

namespace FedPlan

/-- The members that any two of the sets have in common are those of the core. -/
def HaveCore (sets : List NodeSet) (core : WordSet) : Prop :=
  sets.Pairwise fun s t => s.members ∩ t.members = core

namespace JoinGraph

variable {g : JoinGraph} {core : WordSet} {sets : List NodeSet} {p : Plan}

theorem subset_of_haveCore (h : HaveCore sets core) (htwo : 2 ≤ sets.length) :
    ∀ s ∈ sets, ∀ n ∈ core, n ∈ s.members := by
  match sets, htwo with
  | a :: b :: rest, _ =>
    have hfirst := (List.pairwise_cons.1 h).1
    intro s hs n hn
    rcases List.mem_cons.1 hs with rfl | hs
    · rw [← hfirst b List.mem_cons_self] at hn
      exact (WordSet.mem_inter.1 hn).1
    · rw [← hfirst s hs] at hn
      exact (WordSet.mem_inter.1 hn).2

/-! ## The only candidate -/

theorem overlaps_of_haveCore (h : HaveCore sets core) (hshare : g.isShareable core = true) :
    (pairs sets).filterMap (fun (s, t) => g.overlap s.members t.members) =
      List.replicate (pairs sets).length core := by
  have hall : ∀ x ∈ pairs sets, g.overlap x.1.members x.2.members = some core := by
    intro x hx
    rw [overlap, forall_mem_pairs_iff.2 h x hx, if_pos hshare]
  rw [List.filterMap_congr hall, ← List.map_const']
  exact congrFun List.filterMap_eq_map (pairs sets)

theorem recordAll_replicate (hshare : g.isShareable core = true) (n : Nat) :
    (List.replicate n core).foldl g.record [core] = [core] := by
  have hover : ¬core.isDisjoint core = true := by
    obtain ⟨i, hi, _⟩ := WordSet.exists_mem_of_two_le_size (isShareable_iff.1 hshare).1
    rw [WordSet.isDisjoint_iff]
    exact fun hdisj => hdisj i hi hi
  have hagain : g.record [core] core = [core] := by
    rw [record, if_neg hover, if_pos rfl]
  induction n with
  | zero => rfl
  | succ n ih => rw [List.replicate_succ, List.foldl_cons, hagain, ih]

theorem sharedSubsets_of_haveCore (h : HaveCore sets core) (htwo : 2 ≤ sets.length)
    (hshare : g.isShareable core = true) : g.sharedSubsets sets = [core] := by
  obtain ⟨n, hn⟩ : ∃ n, (pairs sets).length = n + 1 := by
    match sets, htwo with
    | a :: b :: rest, _ => exact ⟨_, rfl⟩
  rw [sharedSubsets, overlaps_of_haveCore h hshare, hn, List.replicate_succ, List.foldl_cons]
  exact recordAll_replicate hshare n

theorem sharedSubsets_eq_nil_of_haveCore (h : HaveCore sets core)
    (hshare : ¬g.isShareable core = true) : g.sharedSubsets sets = [] := by
  have hall : ∀ x ∈ pairs sets, g.overlap x.1.members x.2.members = none := by
    intro x hx
    rw [overlap, forall_mem_pairs_iff.2 h x hx, if_neg hshare]
  rw [sharedSubsets, List.filterMap_eq_nil_iff.2 hall]
  rfl

theorem candidates_of_haveCore (h : HaveCore sets core) (htwo : 2 ≤ sets.length) :
    g.candidates sets = if g.isShareable core then [core] else [] := by
  rw [candidates]
  split
  · next hshare =>
    rw [sharedSubsets_of_haveCore h htwo hshare, List.flatMap_singleton,
      splitBy_of_subset (subset_of_haveCore h htwo) hshare]
  · next hshare => rw [sharedSubsets_eq_nil_of_haveCore h hshare, List.flatMap_nil]

/-! ## The order -/

/-- Each set that has an input order still has one with the plan in place of the members. -/
def KeepsOrders (g : JoinGraph) (members : WordSet) (p : Plan) (sets : List NodeSet) : Prop :=
  ∀ s ∈ sets, hasInputOrder (g.plansOf s.members) = true →
    hasInputOrder (g.plansOf (s.members \ members) ++ [p]) = true

theorem keepsOrders_iff (hsub : ∀ s ∈ sets, ∀ n ∈ core, n ∈ s.members) :
    sets.all (fun s => g.keepsOrder core p s.members) = true ↔ g.KeepsOrders core p sets := by
  rw [List.all_eq_true]
  apply forall₂_congr
  intro s hs
  rw [keepsOrder, WordSet.isSubset_iff.2 (hsub s hs)]
  cases hasInputOrder (g.plansOf s.members) <;> simp

end JoinGraph

namespace PlanM

variable {st : Planning} {core : WordSet} {sets : List NodeSet}

theorem withShared_of_subset {g : JoinGraph} {r : Reduction} {p : Plan} {position : Nat}
    (hsub : ∀ s ∈ r.reduced, ∀ n ∈ core, n ∈ s.members) :
    withShared r (g.own core) position p =
      { shared := r.shared ++ [{ members := g.own core, position, plan := p }]
        reduced := r.reduced.map fun s =>
          { s with members := (s.members \ core).insert position } } := by
  have hreplace : r.reduced.map (·.replace core position) = r.reduced.map fun s =>
      { s with members := (s.members \ core).insert position } :=
    List.map_congr_left fun s hs => if_pos (WordSet.isSubset_iff.2 (hsub s hs))
  rw [← hreplace]
  rfl

/-- The reduction has at most one turn. -/
theorem reduce_eq_of_haveCore (strategy : Strategy) (hsets : ∀ s ∈ sets, st.graph.Owns s)
    (htwo : 2 ≤ sets.length) (hcore : HaveCore sets core) :
    reduce strategy sets st =
      if st.graph.isShareable core then shareSubset strategy ⟨[], sets⟩ core st
      else .ok ⟨[], sets⟩ st := by
  rw [reduce_eq hsets, JoinGraph.candidates_of_haveCore hcore htwo]
  split
  · rw [List.foldlM_cons]
    exact congrFun (bind_pure _) st
  · rfl

/-- A core that can be shared is the only subset that the strategy is asked for. Its plan takes its place in all
of the sets if none of them loses its input order, and otherwise nothing changes. -/
theorem reduce_common_core (strategy : Strategy) (st : Planning)
    (hsets : ∀ s ∈ sets, st.graph.Owns s)
    (htwo : 2 ≤ sets.length) (hcore : HaveCore sets core) :
    let subset := st.graph.own core
    let asked := st.asked ++ [subset]
    (¬(2 ≤ core.size ∧ st.graph.Connected core) → reduce strategy sets st = .ok ⟨[], sets⟩ st) ∧
    (2 ≤ core.size ∧ st.graph.Connected core →
      (∀ p, strategy st.graph subset = .ok (some p) →
        (st.graph.KeepsOrders core p sets →
          let position := (st.graph.add p).2
          reduce strategy sets st = .ok
            { shared := [{ members := subset, position, plan := p }]
              reduced := sets.map fun s =>
                { s with members := (s.members \ core).insert position } }
            { graph := (st.graph.add p).1, asked }) ∧
        (¬st.graph.KeepsOrders core p sets →
          reduce strategy sets st = .ok ⟨[], sets⟩ { st with asked })) ∧
      (strategy st.graph subset = .ok none →
        reduce strategy sets st = .ok ⟨[], sets⟩ { st with asked }) ∧
      ∀ e, strategy st.graph subset = .error e →
        reduce strategy sets st = .error e { st with asked }) := by
  have hsub := JoinGraph.subset_of_haveCore hcore htwo
  have heq := reduce_eq_of_haveCore strategy hsets htwo hcore
  rw [← JoinGraph.isShareable_iff]
  intro subset asked
  refine ⟨fun hnot => heq.trans (if_neg hnot), ?_⟩
  intro hshare
  have hsize := (JoinGraph.isShareable_iff.1 hshare).1
  have hholds : st.graph.Holds core := by
    obtain ⟨s, hs⟩ := List.exists_mem_of_length_pos (by omega : 0 < sets.length)
    exact fun n hn => (hsets s hs).holds n (hsub s hs n hn)
  rw [if_pos hshare] at heq
  refine ⟨?_, ?_, ?_⟩
  · intro p hplan
    have hturn := heq.trans (shareSubset_some hsets hholds hsize hplan)
    have hkeeps := JoinGraph.keepsOrders_iff (g := st.graph) (p := p) hsub
    constructor
    · intro hkeep position
      rw [hturn, if_pos (hkeeps.2 hkeep), withShared_of_subset hsub]
      rfl
    · intro hnot
      rw [hturn, if_neg (mt hkeeps.1 hnot)]
  · exact fun hplan => heq.trans (shareSubset_none hholds hsize hplan)
  · exact fun e hplan => heq.trans (shareSubset_error hholds hsize hplan)

end PlanM

namespace Lookups

/-- The numbers that are looked up need the titles, and these need the numbers of the books. -/
def nested : List NodeSet := [graph.setOf [0, 1, 2], graph.setOf [1, 2]]

def numbers : Plan := (isbns.join? books).toOption.get (by decide +kernel)

theorem nested_owned : ∀ s ∈ nested, graph.Owns s := by
  simp only [nested, List.forall_mem_cons, List.not_mem_nil, false_implies, implies_true, and_true]
  exact ⟨JoinGraph.owns_setOf (by decide), JoinGraph.owns_setOf (by decide)⟩

end Lookups

namespace Row

open PlanM

/-- The first two hops, each time with another one of the rest. -/
def fan : List NodeSet := [graph.setOf [0, 1, 2], graph.setOf [0, 1, 3], graph.setOf [0, 1, 4]]

def firstTwo : Plan :=
  (Plan.join? (.source (.hop "a" ⟨"v0"⟩ ⟨"v1"⟩)) (.source (.hop "b" ⟨"v1"⟩ ⟨"v2"⟩))).toOption.get
    (by decide +kernel)

theorem fan_owned : ∀ s ∈ fan, graph.Owns s := by
  simp only [fan, List.forall_mem_cons, List.not_mem_nil, false_implies, implies_true, and_true]
  exact ⟨JoinGraph.owns_setOf (by decide), JoinGraph.owns_setOf (by decide),
    JoinGraph.owns_setOf (by decide)⟩

/-- The numbers and the books are planned too, but with their plan in place the titles would come too late. -/
theorem fan_reduced :
    reduce .greedy fan ⟨graph, []⟩ = .ok
      { shared := [{ members := graph.setOf [0, 1], position := 5, plan := firstTwo }]
        reduced := [graph.setOf [2, 5], graph.setOf [3, 5], graph.setOf [4, 5]] }
      { graph := (graph.add firstTwo).1, asked := [graph.setOf [0, 1]] } ∧
    reduce .greedy Lookups.nested ⟨Lookups.graph, []⟩ =
      .ok ⟨[], Lookups.nested⟩ ⟨Lookups.graph, [Lookups.graph.setOf [1, 2]]⟩ := by
  constructor
  · have hcore : HaveCore fan (.ofList [0, 1]) := by
      unfold HaveCore
      decide +kernel
    have hshare : graph.isShareable (.ofList [0, 1]) = true := by decide +kernel
    have hplan : Strategy.greedy graph (graph.setOf [0, 1]) = .ok (some firstTwo) := by
      decide +kernel
    have hkeep : graph.KeepsOrders (.ofList [0, 1]) firstTwo fan := by
      unfold JoinGraph.KeepsOrders
      decide +kernel
    have hposition : (graph.add firstTwo).2 = 5 := by decide +kernel
    have hreduced : (fan.map fun s =>
        { s with members := (s.members \ .ofList [0, 1]).insert 5 }) =
        [graph.setOf [2, 5], graph.setOf [3, 5], graph.setOf [4, 5]] := by decide +kernel
    have hlaw := reduce_common_core .greedy ⟨graph, []⟩ fan_owned (by decide) hcore
    have hrun := ((hlaw.2 (JoinGraph.isShareable_iff.1 hshare)).1 firstTwo hplan).1 hkeep
    simp only [hposition, hreduced] at hrun
    exact hrun
  · have hcore : HaveCore Lookups.nested (.ofList [1, 2]) := by
      unfold HaveCore
      decide +kernel
    have hshare : Lookups.graph.isShareable (.ofList [1, 2]) = true := by decide +kernel
    have hplan : Strategy.greedy Lookups.graph (Lookups.graph.setOf [1, 2]) =
        .ok (some Lookups.numbers) := by decide +kernel
    have hkeep : ¬Lookups.graph.KeepsOrders (.ofList [1, 2]) Lookups.numbers Lookups.nested := by
      unfold JoinGraph.KeepsOrders
      decide +kernel
    have hlaw := reduce_common_core .greedy ⟨Lookups.graph, []⟩ Lookups.nested_owned
      (by decide) hcore
    exact ((hlaw.2 (JoinGraph.isShareable_iff.1 hshare)).1 Lookups.numbers hplan).2 hkeep

end Row

end FedPlan
