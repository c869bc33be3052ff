import FedPlan.Aggregation
import FedPlan.Proofs.Hops
import FedPlan.Proofs.Sharing.Run

/-!
# Aggregated paths

What has been replaced is gone from all reduced paths, except for nodes that stand for a shared subset
and belong to another one. If such a node is left in a path, the check at the end fails, and it fails
in no other case.
-/

namespace FedPlan

namespace JoinGraph

variable {g g' : JoinGraph} {s s' : NodeSet} {ns : List SharedNode} {r : Reduction}
  {paths : List NodeSet}

/-! ## What is left of replaced members -/

/-- In the end, a set has only those replaced members that were put there in place of others. -/
theorem Rewriting.of_replaced_member (h : Rewriting g s ns g' s') {P : Nat → Prop}
    (hposition : ∀ n ∈ ns, P n.position)
    (hapart : ns.Pairwise fun m n => m.members.members.Apart n.members.members)
    (hpart : ∀ n ∈ ns, (∀ x ∈ n.members.members, x ∈ s.members) ∨
      ∀ x ∈ n.members.members, x ∈ s.members → P x) :
    ∀ n ∈ ns, ∀ x ∈ n.members.members, x ∈ s'.members → P x := by
  induction h with
  | done => simp
  | @share g g' g'' s s' n ns _ _ _ hrest ih =>
    obtain ⟨hfirst, hapart⟩ := List.pairwise_cons.1 hapart
    obtain ⟨hn, hlater⟩ := List.forall_mem_cons.1 hposition
    obtain ⟨hhead, htail⟩ := List.forall_mem_cons.1 hpart
    rw [List.forall_mem_cons]
    constructor
    · intro x hx hx'
      rcases hrest.mem_or_position hx' with hmem | ⟨k, hk, hkx⟩
      · rcases mem_of_mem_replace hmem with he | ⟨hmem, hgone⟩
        · exact he ▸ hn
        · rcases hhead with hsub | hold
          · exact absurd hx (hgone hsub)
          · exact hold x hx hmem
      · exact hkx ▸ hlater k hk
    · refine ih hlater hapart fun m hm => ?_
      rcases htail m hm with hsub | hold
      · exact .inl fun x hx => mem_replace_of_not_mem (hsub x hx) fun hxn => hfirst m hm x hxn hx
      · refine .inr fun x hx hmem => ?_
        rcases mem_of_mem_replace hmem with he | ⟨hmem, _⟩
        · exact he ▸ hn
        · exact hold x hx hmem

end JoinGraph

/-- The node of a shared subset belongs to another one and is left in a reduced set. -/
def Reduction.Stranded (r : Reduction) : Prop :=
  ∃ n ∈ r.shared, ∃ m ∈ r.shared, n.position ∈ m.members.members ∧
    ∃ s ∈ r.reduced, n.position ∈ s.members

namespace JoinGraph

variable {g g' : JoinGraph} {s s' : NodeSet} {r : Reduction} {paths sets : List NodeSet}

theorem Ran.gone (h : g.Ran ⟨[], sets⟩ (g.candidates sets) g' r r.shared)
    (hsets : ∀ s ∈ sets, g.Owns s) (hno : ¬r.Stranded) {n : SharedNode} (hn : n ∈ r.shared)
    (hs : s ∈ r.reduced) :
    n.members.members.Apart s.members := by
  intro x hx hxs
  obtain ⟨s₀, hs₀, hrewriting⟩ := h.exists_rewriting hs
  have hposition := hrewriting.of_replaced_member (P := fun x => ∃ k ∈ r.shared,
    k.position = x) (fun k hk => ⟨k, hk, rfl⟩) (h.owned hsets).apart (fun m hm => ?_) n hn x hx hxs
  · obtain ⟨k, hk, rfl⟩ := hposition
    exact hno ⟨k, hk, n, hn, hx, s, hs, hxs⟩
  · rcases uniform_candidates (h.mem_candidates hm) s₀ hs₀ with hsub | hapart
    · exact .inl hsub
    · exact .inr fun y hy hys => absurd hys (hapart y hy)

theorem Ran.connected (h : g.Ran ⟨[], sets⟩ (g.candidates sets) g' r r.shared)
    (hsets : ∀ s ∈ sets, g.Owns s) (hconn : ∀ s ∈ sets, g.Connected s.members) :
    ∀ s ∈ r.reduced, g'.Connected s.members := by
  intro s' hs'
  obtain ⟨s, hs, hrewriting⟩ := h.exists_rewriting hs'
  exact (hrewriting.stands (hsets s hs)).connected.2 (hconn s hs)

/-! ## The checks -/

theorem requirePath_eq_ok {options : Options} (hs : g.Owns s) (hconn : g.Connected s.members) :
    g.requirePath options s = .ok () := by
  rw [requirePath, requireMember_eq_ok hs]
  simp only [isConnected?_eq_ok hs, isConnected_iff.2 hconn]
  split <;> rfl

theorem owns_of_requirePath {options : Options} (h : g.requirePath options s = .ok ()) :
    g.Owns s := by
  apply owns_of_requireMember
  rw [requirePath] at h
  rcases hmember : g.requireMember s with v | u
  · rw [hmember] at h
    cases h
  · rfl

/-- What the aggregation makes of a reduction. -/
def aggregationOf (g : JoinGraph) (r : Reduction) : Aggregation where
  nodes := g.own (r.reduced.foldl (fun nodes s => nodes ∪ s.members) ∅)
  shared := r.shared
  paths := r.reduced

theorem mem_nodes_aggregationOf {x : Nat} :
    x ∈ (g.aggregationOf r).nodes.members ↔ ∃ s ∈ r.reduced, x ∈ s.members := by
  simp [aggregationOf, own, WordSet.mem_foldl_union]

theorem gone_nodes_of_gone
    (h : ∀ n ∈ r.shared, ∀ s ∈ r.reduced, n.members.members.Apart s.members) :
    ∀ n ∈ r.shared, n.members.members.Apart (g.aggregationOf r).nodes.members := by
  intro n hn x hx hmem
  obtain ⟨s, hs, hxs⟩ := mem_nodes_aggregationOf.1 hmem
  exact h n hn s hs x hx hxs

/-- What an aggregation is checked for: shared subsets are disjoint, nothing of them is left, and the
reduced paths are connected. -/
structure Clean (g : JoinGraph) (a : Aggregation) : Prop where
  disjoint : a.shared.Pairwise fun m n => m.members.members.Apart n.members.members
  gone_nodes : ∀ n ∈ a.shared, n.members.members.Apart a.nodes.members
  gone_paths : ∀ n ∈ a.shared, ∀ s ∈ a.paths, n.members.members.Apart s.members
  connected : ∀ s ∈ a.paths, g.Connected s.members

theorem owns_nodes_aggregationOf (h : r.Owned g) : g.Owns (g.aggregationOf r).nodes := by
  refine owns_own fun x hx => ?_
  obtain ⟨s, hs, hxs⟩ := (mem_nodes_aggregationOf (g := g)).1 hx
  exact (h.reduced s hs).holds x hxs

private theorem check_unreplaced (h : r.Owned g) {n : SharedNode} (hn : n ∈ r.shared) :
    (do unless ← n.members.isDisjoint? (g.aggregationOf r).nodes do
          throw (.unreplaced n.members.members) : Except Violation Unit) =
      if n.members.members.isDisjoint (g.aggregationOf r).nodes.members then .ok ()
      else .error (.unreplaced n.members.members) := by
  rw [isDisjoint?_eq_ok (h.shared n hn) (owns_nodes_aggregationOf h)]
  simp only [bind, Except.bind]
  split <;> rfl

theorem requireReduced_eq_ok (h : r.Owned g) (hconn : ∀ s ∈ r.reduced, g.Connected s.members)
    (hgone : ∀ n ∈ r.shared, n.members.members.Apart (g.aggregationOf r).nodes.members) :
    g.requireReduced (g.aggregationOf r) = .ok () := by
  have hunreplaced : ((g.aggregationOf r).shared.map (·.members)).forM (fun s => do
      unless ← s.isDisjoint? (g.aggregationOf r).nodes do
        throw (.unreplaced s.members) : NodeSet → Except Violation Unit) = .ok () := by
    rw [forM_eq_ok, List.forall_mem_map]
    intro n hn
    rw [check_unreplaced h hn, if_pos (WordSet.isDisjoint_iff.2 (hgone n hn))]
  have hpaths : (g.aggregationOf r).paths.forM (fun path => do
      unless ← g.isConnected? path do
        throw (.unconnectedReducedPath path.members) : NodeSet → Except Violation Unit) =
      .ok () := by
    rw [forM_eq_ok]
    intro s hs
    simp only [isConnected?_eq_ok (h.reduced s hs), isConnected_iff.2 (hconn s hs)]
    rfl
  rw [requireReduced]
  simp only [aggregationOf] at hunreplaced hpaths ⊢
  rw [requireDisjoint_shared h, hunreplaced, hpaths]
  rfl

theorem requireReduced_eq_error (h : r.Owned g) {n : SharedNode} (hn : n ∈ r.shared)
    (hleft : ¬n.members.members.Apart (g.aggregationOf r).nodes.members) :
    ∃ m ∈ r.shared,
      g.requireReduced (g.aggregationOf r) = .error (.unreplaced m.members.members) := by
  have hunreplaced : ∃ s ∈ (g.aggregationOf r).shared.map (·.members),
      ((g.aggregationOf r).shared.map (·.members)).forM (fun s => do
        unless ← s.isDisjoint? (g.aggregationOf r).nodes do
          throw (.unreplaced s.members) : NodeSet → Except Violation Unit) =
      .error (.unreplaced s.members) := by
    apply forM_eq_error
    · rw [List.forall_mem_map]
      intro m hm
      rw [check_unreplaced h hm]
      split
      · exact .inl rfl
      · exact .inr rfl
    · refine ⟨n.members, List.mem_map_of_mem hn, ?_⟩
      rw [check_unreplaced h hn, if_neg (mt WordSet.isDisjoint_iff.1 hleft)]
      simp
  obtain ⟨s, hs, herr⟩ := hunreplaced
  obtain ⟨m, hm, rfl⟩ := List.mem_map.1 hs
  refine ⟨m, hm, ?_⟩
  rw [requireReduced]
  simp only [aggregationOf] at herr ⊢
  rw [requireDisjoint_shared h, herr]
  rfl

end JoinGraph

namespace PlanM

variable {strategy : Strategy} {st st' : Planning} {r : Reduction} {paths : List NodeSet}

theorem aggregate_eq (st : Planning) (share : Bool) (hpaths : ∀ s ∈ paths, st.graph.Owns s)
    (hconn : ∀ s ∈ paths, st.graph.Connected s.members)
    (hrun : reduce strategy paths st = .ok r st') :
    aggregate ⟨share, true⟩ strategy paths st =
      match st'.graph.requireReduced (st'.graph.aggregationOf r) with
      | .ok () => .ok (st'.graph.aggregationOf r) st'
      | .error v => .error (.violation v) st' := by
  have hrequire : paths.forM (st.graph.requirePath ⟨share, true⟩) = .ok () :=
    forM_eq_ok.2 fun s hs => JoinGraph.requirePath_eq_ok (hpaths s hs) (hconn s hs)
  rw [aggregate, bind_ok (graph_eq st), bind_ok (check_ok hrequire st), bind_ok hrun,
    bind_ok (graph_eq st')]
  rcases hcheck : st'.graph.requireReduced (st'.graph.aggregationOf r) with v | u
  · exact bind_error (check_error hcheck st')
  · exact bind_ok (check_ok hcheck st')

/-- The aggregation of connected paths with a greedy strategy is clean unless a node is stranded; then
it fails because the members of a shared subset have not been replaced everywhere. -/
theorem aggregate_clean_iff (cost : Plan → Cardinality) (share : Bool) (g : JoinGraph)
    (asked paths : List NodeSet) (hpaths : ∀ s ∈ paths, g.Owns s)
    (hconn : ∀ s ∈ paths, g.Connected s.members) :
    ∃ r st, reduce (.greedyBy cost) paths ⟨g, asked⟩ = .ok r st ∧
      (¬r.Stranded → ∃ a, aggregate ⟨share, true⟩ (.greedyBy cost) paths ⟨g, asked⟩ = .ok a st ∧
        a.shared = r.shared ∧ a.paths = r.reduced ∧ st.graph.Clean a) ∧
      (r.Stranded → ∃ n ∈ r.shared,
        aggregate ⟨share, true⟩ (.greedyBy cost) paths ⟨g, asked⟩ =
          .error (.violation (.unreplaced n.members.members)) st) := by
  obtain ⟨r, st, hrun, hran⟩ :=
    reduce_spec ⟨g, asked⟩ (Strategy.greedyBy_correct cost) hpaths
  have howned := hran.owned hpaths
  have heq := aggregate_eq ⟨g, asked⟩ share hpaths hconn hrun
  refine ⟨r, st, hrun, ?_, ?_⟩
  · intro hno
    have hgone : ∀ n ∈ r.shared, ∀ s ∈ r.reduced, n.members.members.Apart s.members :=
      fun n hn s hs => hran.gone hpaths hno hn hs
    have hconn' : ∀ s ∈ r.reduced, st.graph.Connected s.members := hran.connected hpaths hconn
    have hnodes := JoinGraph.gone_nodes_of_gone (g := st.graph) hgone
    rw [JoinGraph.requireReduced_eq_ok howned hconn' hnodes] at heq
    exact ⟨_, heq, rfl, rfl, howned.apart, hnodes, hgone, hconn'⟩
  · intro hstranded
    obtain ⟨n, hn, m, hm, hmem, s, hs, hleft⟩ := hstranded
    have hnot : ¬m.members.members.Apart (st.graph.aggregationOf r).nodes.members := fun hapart =>
      hapart _ hmem (JoinGraph.mem_nodes_aggregationOf.2 ⟨s, hs, hleft⟩)
    obtain ⟨k, hk, herr⟩ := JoinGraph.requireReduced_eq_error howned hm hnot
    rw [herr] at heq
    exact ⟨k, hk, heq⟩

/-- Of these paths, two go over the first two hops and two over their join and the third hop. -/
def chainPaths : List NodeSet :=
  [Chain.graph.setOf [0, 1], Chain.graph.setOf [0, 1], Chain.graph.setOf [2, 3],
    Chain.graph.setOf [2, 3]]

theorem chainPaths_owned : ∀ s ∈ chainPaths, Chain.graph.Owns s := by
  simp only [chainPaths, List.forall_mem_cons, List.not_mem_nil, false_implies, implies_true,
    and_true]
  exact ⟨JoinGraph.owns_setOf (by decide), JoinGraph.owns_setOf (by decide),
    JoinGraph.owns_setOf (by decide), JoinGraph.owns_setOf (by decide)⟩

theorem chainPaths_connected : ∀ s ∈ chainPaths, Chain.graph.Connected s.members := by
  have hall : ∀ s ∈ chainPaths, Chain.graph.isConnected s.members = true := by decide +kernel
  exact fun s hs => JoinGraph.isConnected_iff.1 (hall s hs)

/-- As the aggregation fails, a node is stranded. -/
theorem chain_stranded :
    ∃ r st, reduce (.greedyBy fun _ => .max) chainPaths ⟨Chain.graph, []⟩ = .ok r st ∧
      r.Stranded := by
  have hfails : (match aggregate ⟨true, true⟩ (.greedyBy fun _ => .max) chainPaths
      ⟨Chain.graph, []⟩ with
    | .ok _ _ => false
    | .error _ _ => true) = true := by decide +kernel
  obtain ⟨r, st, hrun, hclean, _⟩ := aggregate_clean_iff (fun _ => .max) true Chain.graph []
    chainPaths chainPaths_owned chainPaths_connected
  refine ⟨r, st, hrun, ?_⟩
  by_contra hnot
  obtain ⟨a, ha, _⟩ := hclean hnot
  rw [ha] at hfails
  cases hfails

/-- The join of the first two hops takes their place in two paths. With the third hop it is replaced in
the others, so it should be gone from all. -/
theorem chain_not_aggregated :
    (∀ s ∈ chainPaths, Chain.graph.Owns s ∧ Chain.graph.Connected s.members) ∧
    ∃ st, aggregate ⟨true, true⟩ (.greedyBy fun _ => .max) chainPaths ⟨Chain.graph, []⟩ =
      .error (.violation (.unreplaced (.ofList [2, 3]))) st := by
  refine ⟨fun s hs => ⟨chainPaths_owned s hs, chainPaths_connected s hs⟩, ?_⟩
  have hrun : (match aggregate ⟨true, true⟩ (.greedyBy fun _ => .max) chainPaths
      ⟨Chain.graph, []⟩ with
    | .ok _ _ => false
    | .error e _ => decide (e = .violation (.unreplaced (.ofList [2, 3])))) = true := by
    decide +kernel
  split at hrun
  · cases hrun
  · next e st heq => exact ⟨st, heq.trans (congrArg (EStateM.Result.error · st)
      (of_decide_eq_true hrun))⟩

end PlanM

end FedPlan
