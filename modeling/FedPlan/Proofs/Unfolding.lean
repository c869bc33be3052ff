import FedPlan.Proofs.Alternatives
import FedPlan.Proofs.History

/-!
# Unfolding shared nodes

Shared nodes stay in the graph, and the next search for components takes them like any other node. A
component that has one of them as a member is unfolded by putting back what the node merges, so it
joins the fragments of a component that was there before. Planning a query again therefore returns
the alternatives of the first time and no others, but it may return one of them several times.
-/

namespace FedPlan

variable {g g' g'' : JoinGraph} {q : Query} {s s' : NodeSet} {part : WordSet} {p : Plan}
  {position : Nat}

namespace JoinGraph

/-! ## One shared node -/

theorem eq_position_add {n : Nat} (hn : n < (g.add p).1.size) (hnew : g.size ≤ n) :
    n = (g.add p).2 := by
  obtain ⟨q, hq⟩ := exists_node hn
  have hmem : q ∈ g.nodes ∨ q = p := mem_nodes_add.1 (List.mem_of_getElem? hq)
  rcases hmem with hold | rfl
  · obtain ⟨k, hk⟩ := List.mem_iff_getElem?.1 hold
    have hkn : k = n := position_unique ((add_grows g p).node?_eq_some hk) hq
    have hlt : k < g.size := lt_size_of_node? hk
    omega
  · exact position_unique hq (node?_add g q)

/-- The set with the part put back in place of the node that merges it. -/
def unfolded (part : WordSet) (position : Nat) (s : WordSet) : WordSet := s.erase position ∪ part

theorem mem_unfolded {part s : WordSet} {position n : Nat} :
    n ∈ unfolded part position s ↔ (n ≠ position ∧ n ∈ s) ∨ n ∈ part := by
  rw [unfolded, WordSet.mem_union, WordSet.mem_erase]

namespace Substitutes

theorem matches_position_iff (h : g.Substitutes g' part p position) {t : TriplePattern} :
    g'.Matches position t ↔ ∃ m ∈ part, g.Matches m t := by
  have hnode : g'.Matches position t ↔ t ∈ p.triples := by
    constructor
    · intro hmatch
      obtain ⟨q, hq, ht⟩ := hmatch
      cases h.node.symm.trans hq
      exact ht
    · intro ht
      exact ⟨p, h.node, ht⟩
  rw [hnode, h.merges.triples]
  constructor
  · intro hex
    obtain ⟨q, hq, ht⟩ := hex
    obtain ⟨m, hm, hq⟩ := mem_plansOf.1 hq
    exact ⟨m, hm, q, hq, ht⟩
  · intro hex
    obtain ⟨m, hm, q, hq, ht⟩ := hex
    exact ⟨q, mem_plansOf.2 ⟨m, hm, hq⟩, ht⟩

theorem not_mem_of_mem_part (h : g.Substitutes g' part p position) (hnew : g.size ≤ position)
    (hs : IsComponent g' q s) (hmem : position ∈ s.members) {m : Nat} (hm : m ∈ part) :
    m ∉ s.members := by
  -- What the new node merges is matched by it, hence by no other member.
  intro hms
  have hlt : m < g.size := h.holds m hm
  obtain ⟨q, hq⟩ := exists_node hlt
  obtain ⟨t, ht⟩ := List.exists_mem_of_ne_nil _ q.triples_ne_nil
  have hmt : g.Matches m t := ⟨q, hq, ht⟩
  have he : m = position := hs.patternsApart m hms position hmem t
    ((h.grows.matches_iff hlt).2 hmt) (h.matches_position_iff.2 ⟨m, hm, hmt⟩)
  omega

theorem insert_unfolded_sdiff (h : g.Substitutes g' part p position) (hnew : g.size ≤ position)
    (hs : IsComponent g' q s) (hmem : position ∈ s.members) :
    (unfolded part position s.members \ part).insert position = s.members := by
  apply WordSet.ext
  intro n
  rw [WordSet.mem_insert, WordSet.mem_sdiff, mem_unfolded]
  constructor
  · intro hn
    rcases hn with rfl | ⟨⟨_, hn⟩ | hn, hnot⟩
    · exact hmem
    · exact hn
    · exact absurd hn hnot
  · intro hn
    by_cases he : n = position
    · exact .inl he
    · exact .inr ⟨.inl ⟨he, hn⟩, fun hpart => h.not_mem_of_mem_part hnew hs hmem hpart hn⟩

theorem holds_unfolded (h : g.Substitutes g' part p position)
    (hold : ∀ n ∈ s.members, n ≠ position → n < g.size) :
    g.Holds (unfolded part position s.members) := by
  intro n hn
  rcases mem_unfolded.1 hn with ⟨hne, hn⟩ | hn
  · exact hold n hn hne
  · exact h.holds n hn

theorem patternsApart_unfolded (h : g.Substitutes g' part p position) (hs : IsComponent g' q s)
    (hmem : position ∈ s.members) (hold : ∀ n ∈ s.members, n ≠ position → n < g.size)
    (hapart : g.PatternsApart part) :
    g.PatternsApart (unfolded part position s.members) := by
  have hkept : ∀ n ∈ s.members, n ≠ position → ∀ t, g.Matches n t → g'.Matches n t :=
    fun n hn hne t => (h.grows.matches_iff (hold n hn hne)).2
  -- A pattern of the part is one of the new node in `s`, where no other member matches it.
  have hcross : ∀ n ∈ s.members, n ≠ position → ∀ m ∈ part, ∀ t, g.Matches n t →
      ¬g.Matches m t := by
    intro n hn hne m hm t hnt hmt
    exact hne (hs.patternsApart n hn position hmem t (hkept n hn hne t hnt)
      (h.matches_position_iff.2 ⟨m, hm, hmt⟩))
  intro i hi j hj t hit hjt
  rcases mem_unfolded.1 hi with ⟨hine, hi⟩ | hi
  · rcases mem_unfolded.1 hj with ⟨hjne, hj⟩ | hj
    · exact hs.patternsApart i hi j hj t (hkept i hi hine t hit) (hkept j hj hjne t hjt)
    · exact absurd hjt (hcross i hi hine j hj t hit)
  · rcases mem_unfolded.1 hj with ⟨hjne, hj⟩ | hj
    · exact absurd hit (hcross j hj hjne i hi t hjt)
    · exact hapart i hi j hj t hit hjt

/-- A component with the new node unfolds into one of the old graph that joins the same fragments. -/
theorem exists_unfolded (h : g.Substitutes g' part p position) (hnew : g.size ≤ position)
    (hpart : hasInputOrder (g.plansOf part) = true) (hapart : g.PatternsApart part)
    (hs : IsComponent g' q s) (horder : hasInputOrder (g'.plansOf s.members) = true)
    (hmem : position ∈ s.members) (hold : ∀ n ∈ s.members, n ≠ position → n < g.size) :
    ∃ s₀, IsComponent g q s₀ ∧ hasInputOrder (g.plansOf s₀.members) = true ∧
      (g'.leavesOf s.members).Perm (g.leavesOf s₀.members) := by
  have hholds := h.holds_unfolded hold
  have hsub : ∀ n ∈ part, n ∈ unfolded part position s.members :=
    fun n hn => mem_unfolded.2 (.inr hn)
  have hnot : position ∉ unfolded part position s.members := fun hin =>
    Nat.not_lt_of_le hnew (hholds position hin)
  have hrefold := h.insert_unfolded_sdiff hnew hs hmem
  have hkeep : hasInputOrder
      (g.plansOf (unfolded part position s.members \ part) ++ [p]) = true := by
    rw [← hasInputOrder_perm (h.plansOf_perm hholds hnot), hrefold]
    exact horder
  have hstands := h.stands hholds hsub hpart fun _ => hkeep
  have hleaves := h.leavesOf_perm hholds hsub hnot
  rw [hrefold] at hstands hleaves
  have howns : g.Owns (g.own (unfolded part position s.members)) := owns_own hholds
  exact ⟨_, hs.of_stands hstands howns (h.patternsApart_unfolded hs hmem hold hapart),
    hstands.ordered.symm.trans horder, hleaves⟩

end Substitutes

/-! ## Any number of shared nodes -/

/-- The second graph has grown, but each of its components that has an input order joins the
fragments of a component of the first graph that has one, too. -/
structure Unfolds (g g' : JoinGraph) : Prop where
  grows : g.Grows g'
  unfold : ∀ q s, IsComponent g' q s → hasInputOrder (g'.plansOf s.members) = true →
    ∃ s₀, IsComponent g q s₀ ∧ hasInputOrder (g.plansOf s₀.members) = true ∧
      (g'.leavesOf s.members).Perm (g.leavesOf s₀.members)

theorem Unfolds.refl (g : JoinGraph) : g.Unfolds g :=
  ⟨.refl g, fun _ s hs horder => ⟨s, hs, horder, .refl _⟩⟩

theorem Unfolds.trans (h : g.Unfolds g') (h' : g'.Unfolds g'') : g.Unfolds g'' where
  grows := h.grows.trans h'.grows
  unfold := by
    intro q s hs horder
    obtain ⟨s₁, hs₁, horder₁, hleaves₁⟩ := h'.unfold q s hs horder
    obtain ⟨s₀, hs₀, horder₀, hleaves₀⟩ := h.unfold q s₁ hs₁ horder₁
    exact ⟨s₀, hs₀, horder₀, hleaves₁.trans hleaves₀⟩

theorem Substitutes.unfolds (h : g.Substitutes (g.add p).1 part p (g.add p).2)
    (hpart : hasInputOrder (g.plansOf part) = true) (hapart : g.PatternsApart part) :
    g.Unfolds (g.add p).1 where
  grows := h.grows
  unfold := by
    intro q s hs horder
    by_cases hall : g.Holds s.members
    · have howns : g.Owns s := ⟨hs.owns.owner.trans h.grows.id_eq, hall⟩
      rw [h.grows.plansOf_eq hall] at horder
      exact ⟨s, (h.grows.isComponent_iff howns).1 hs, horder, by rw [h.grows.leavesOf_eq hall]⟩
    · -- A member behind the old nodes can only be the added node, which is then unfolded.
      obtain ⟨n, hn, hnew⟩ : ∃ n ∈ s.members, g.size ≤ n := by
        simpa [Holds] using hall
      have hposition : n = (g.add p).2 := eq_position_add (hs.owns.holds n hn) hnew
      rw [hposition] at hn hnew
      refine h.exists_unfolded hnew hpart hapart hs horder hn fun m hm hne => ?_
      by_contra hge
      exact hne (eq_position_add (hs.owns.holds m hm) (Nat.le_of_not_lt hge))

theorem Grows.patternsApart (h : g.Grows g') (hpart : g.Holds part)
    (hapart : g.PatternsApart part) : g'.PatternsApart part := by
  intro i hi j hj t hit hjt
  exact hapart i hi j hj t ((h.matches_iff (hpart i hi)).1 hit) ((h.matches_iff (hpart j hj)).1 hjt)

end JoinGraph

namespace PlanM

variable {strategy : Strategy} {r : Reduction} {cs : List WordSet} {sets : List NodeSet}
  {options : Options}

theorem foldlM_unfolds (st : Planning) (hstrategy : strategy.Correct)
    (hr : ∀ s ∈ r.reduced, st.graph.Owns s)
    (hcs : ∀ c ∈ cs,
      (st.graph.Holds c ∧ st.graph.isShareable c = true) ∧ st.graph.PatternsApart c) :
    st.graph.Unfolds ((cs.foldlM (shareSubset strategy) r).graphAfter st) := by
  induction cs generalizing r st with
  | nil => exact .refl st.graph
  | cons c cs ih =>
    obtain ⟨⟨⟨hc, hshare⟩, hapart⟩, hcs⟩ := List.forall_mem_cons.1 hcs
    rw [List.foldlM_cons]
    rcases shareSubset_cases hstrategy hr hc hshare with heq | ⟨p, hnode, horder, _, heq⟩
    · rw [graphAfter_bind_ok heq]
      exact ih { st with asked := st.asked ++ [st.graph.own c] } hr hcs
    · rw [graphAfter_bind_ok heq]
      refine (hnode.unfolds horder hapart).trans
        (ih { graph := (st.graph.add p).1, asked := st.asked ++ [st.graph.own c] }
          (hnode.owns_withShared hr) fun d hd => ?_)
      obtain ⟨hd, hapart⟩ := hcs d hd
      exact ⟨hnode.grows.shareable hd, hnode.grows.patternsApart hd.1 hapart⟩

theorem reduce_unfolds (st : Planning) (hstrategy : strategy.Correct)
    (hcomp : ∀ s ∈ sets, IsComponent st.graph q s) :
    st.graph.Unfolds ((reduce strategy sets).graphAfter st) := by
  have howns : ∀ s ∈ sets, st.graph.Owns s := fun s hs => (hcomp s hs).owns
  rw [graphAfter_congr (reduce_eq howns)]
  refine foldlM_unfolds st hstrategy howns fun c hc => ?_
  -- A candidate is a part of a component, and that has its patterns apart.
  obtain ⟨s, hs, hsub⟩ := (JoinGraph.withinTwo_candidates hc).exists_set
  refine ⟨JoinGraph.shareable_candidates howns c hc, ?_⟩
  intro i hi j hj
  exact (hcomp s hs).patternsApart i (hsub i hi) j (hsub j hj)

theorem planQuery_unfolds (st : Planning) (options : Options) (q : Query)
    (hstrategy : strategy.Correct) :
    st.graph.Unfolds ((planQuery options strategy q).graphAfter st) := by
  rcases graphAfter_planQuery_cases options strategy q st with heq | heq
  · rw [heq]
    exact .refl st.graph
  · rw [heq]
    exact reduce_unfolds st hstrategy fun s hs => JoinGraph.mem_components.1 hs

end PlanM

/-! ## Histories of greedy planning -/

/-- A query that is planned with a greedy strategy. -/
structure GreedyCall where
  options : Options
  cost : Plan → Cardinality
  query : Query

def GreedyCall.graphCall (c : GreedyCall) : GraphCall :=
  .planQuery c.options (.greedyBy c.cost) c.query

namespace JoinGraph

theorem unfolds_afterCalls (g : JoinGraph) (calls : List GreedyCall) :
    g.Unfolds (g.afterCalls (calls.map GreedyCall.graphCall)) := by
  induction calls generalizing g with
  | nil => exact .refl g
  | cons c calls ih =>
    have hcall : g.Unfolds (c.graphCall.graphAfter g) :=
      PlanM.planQuery_unfolds ⟨g, []⟩ c.options c.query (Strategy.greedyBy_correct c.cost)
    exact hcall.trans (ih _)

theorem mem_leavesOf_iff (hsources : ∀ p ∈ g.nodes, ∃ f, p = .source f) {f : Fragment} {i : Nat}
    (hi : g.node? i = some (.source f)) {c : WordSet} : f ∈ g.leavesOf c ↔ i ∈ c := by
  rw [leavesOf, List.mem_flatMap]
  constructor
  · intro hex
    obtain ⟨p, hp, hf⟩ := hex
    obtain ⟨j, hj, hp⟩ := mem_plansOf.1 hp
    obtain ⟨f', rfl⟩ := hsources p (List.mem_of_getElem? hp)
    rw [Plan.leaves_source, List.mem_singleton] at hf
    rwa [position_unique hi (hf ▸ hp)]
  · intro hmem
    exact ⟨.source f, mem_plansOf.2 ⟨i, hmem, hi⟩, by simp⟩

theorem eq_of_leavesOf_perm (hsources : ∀ p ∈ g.nodes, ∃ f, p = .source f) (hs : g.Owns s)
    (hs' : g.Owns s') (h : (g.leavesOf s.members).Perm (g.leavesOf s'.members)) : s = s' := by
  have hmembers : s.members = s'.members := by
    apply WordSet.ext
    intro n
    constructor
    · intro hn
      obtain ⟨p, hp⟩ := exists_node (hs.holds n hn)
      obtain ⟨f, rfl⟩ := hsources p (List.mem_of_getElem? hp)
      exact (mem_leavesOf_iff hsources hp).1 (h.subset ((mem_leavesOf_iff hsources hp).2 hn))
    · intro hn
      obtain ⟨p, hp⟩ := exists_node (hs'.holds n hn)
      obtain ⟨f, rfl⟩ := hsources p (List.mem_of_getElem? hp)
      exact (mem_leavesOf_iff hsources hp).1 (h.symm.subset ((mem_leavesOf_iff hsources hp).2 hn))
  rw [← own_members hs, ← own_members hs', hmembers]

end JoinGraph

/-! ## The alternatives of a query -/

theorem pairwise_of_forall₂ {α β : Type} {R : α → β → Prop} {S : α → α → Prop} {T : β → β → Prop}
    {xs : List α} {ys : List β} (h : List.Forall₂ R xs ys) (hxs : xs.Pairwise S)
    (hT : ∀ {x y x' y'}, R x y → R x' y' → S x x' → T y y') : ys.Pairwise T := by
  induction h with
  | nil => exact .nil
  | cons hxy h ih =>
    obtain ⟨hx, hxs⟩ := List.pairwise_cons.1 hxs
    refine List.pairwise_cons.2 ⟨fun y' hy' => ?_, ih hxs⟩
    obtain ⟨x', hx', hxy'⟩ := exists_left_of_forall₂ h hy'
    exact hT hxy hxy' (hx x' hx')

/-- The plans are those of the components that have an input order. -/
def Alternatives (g : JoinGraph) (q : Query) (plans : List Plan) : Prop :=
  List.Forall₂ (Answers g q)
    ((g.components q).filter fun s => hasInputOrder (g.plansOf s.members)) plans

namespace Alternatives

variable {plans plans' : List Plan}

theorem exists_component (h : Alternatives g q plans) (hp : p ∈ plans) :
    ∃ s, IsComponent g q s ∧ hasInputOrder (g.plansOf s.members) = true ∧
      p.leaves.Perm (g.leavesOf s.members) := by
  obtain ⟨s, hs, hanswers⟩ := exists_left_of_forall₂ h hp
  obtain ⟨hs, horder⟩ := List.mem_filter.1 hs
  exact ⟨s, JoinGraph.mem_components.1 hs, horder, hanswers.leaves⟩

theorem exists_plan (h : Alternatives g q plans) (hs : IsComponent g q s)
    (horder : hasInputOrder (g.plansOf s.members) = true) :
    ∃ p ∈ plans, p.leaves.Perm (g.leavesOf s.members) := by
  obtain ⟨p, hp, hanswers⟩ := exists_right_of_forall₂ h
    (List.mem_filter.2 ⟨JoinGraph.mem_components.2 hs, horder⟩)
  exact ⟨p, hp, hanswers.leaves⟩

theorem pairwise_of_sources (h : Alternatives g q plans)
    (hsources : ∀ p ∈ g.nodes, ∃ f, p = .source f) :
    plans.Pairwise fun p p' => ¬p.leaves.Perm p'.leaves := by
  have hnodup := (JoinGraph.components_nodup g q).filter
    fun s => hasInputOrder (g.plansOf s.members)
  have hcomp : ∀ s ∈ (g.components q).filter (fun s => hasInputOrder (g.plansOf s.members)),
      IsComponent g q s := fun s hs => JoinGraph.mem_components.1 (List.mem_filter.1 hs).1
  refine pairwise_of_forall₂ ((List.forall₂_and_left _ _).2 ⟨hcomp, h⟩) hnodup ?_
  intro s p s' p' hs hs' hne hperm
  refine hne (JoinGraph.eq_of_leavesOf_perm hsources hs.1.owns hs'.1.owns ?_)
  exact hs.2.leaves.symm.trans (hperm.trans hs'.2.leaves)

theorem exists_old (h : Alternatives g q plans) (h' : Alternatives g' q plans')
    (hunfolds : g.Unfolds g') (hp : p ∈ plans') : ∃ p₀ ∈ plans, p.leaves.Perm p₀.leaves := by
  obtain ⟨s, hs, horder, hleaves⟩ := h'.exists_component hp
  obtain ⟨s₀, hs₀, horder₀, hleaves₀⟩ := hunfolds.unfold q s hs horder
  obtain ⟨p₀, hp₀, hplan⟩ := h.exists_plan hs₀ horder₀
  exact ⟨p₀, hp₀, hleaves.trans (hleaves₀.trans hplan.symm)⟩

theorem exists_new (h : Alternatives g q plans) (h' : Alternatives g' q plans')
    (hgrows : g.Grows g') (hp : p ∈ plans) : ∃ p' ∈ plans', p'.leaves.Perm p.leaves := by
  obtain ⟨s, hs, horder, hleaves⟩ := h.exists_component hp
  have horder' : hasInputOrder (g'.plansOf s.members) = true := by
    rwa [hgrows.plansOf_eq hs.owns.holds]
  obtain ⟨p', hp', hplan⟩ := h'.exists_plan ((hgrows.isComponent_iff hs.owns).2 hs) horder'
  rw [hgrows.leavesOf_eq hs.owns.holds] at hplan
  exact ⟨p', hp', hplan.trans hleaves.symm⟩

end Alternatives

theorem JoinGraph.source_of_mem_ofNodes {id : GraphId} {fs : List Fragment}
    (hp : p ∈ (ofNodes id (fs.map .source)).nodes) : ∃ f, p = .source f := by
  rw [nodes_ofNodes, List.mem_eraseDups] at hp
  obtain ⟨f, _, rfl⟩ := List.mem_map.1 hp
  exact ⟨f, rfl⟩

/-- The first time no alternative is returned twice. After other calls the alternatives are the same ones, each
at least once. -/
theorem PlanM.alternatives_afterCalls (id : GraphId) (fs : List Fragment) (calls : List GreedyCall)
    (options : Options) (cost : Plan → Cardinality) (q : Query) :
    ∃ plans plans' st st',
      planQuery options (.greedyBy cost) q ⟨.ofNodes id (fs.map .source), []⟩ = .ok plans st ∧
      planQuery options (.greedyBy cost) q
        ⟨(JoinGraph.ofNodes id (fs.map .source)).afterCalls (calls.map GreedyCall.graphCall), []⟩ =
          .ok plans' st' ∧
      plans.Pairwise (fun p p' => ¬p.leaves.Perm p'.leaves) ∧
      (∀ p ∈ plans, ∃ p' ∈ plans', p'.leaves.Perm p.leaves) ∧
      ∀ p' ∈ plans', ∃ p ∈ plans, p'.leaves.Perm p.leaves := by
  have hunfolds := (JoinGraph.ofNodes id (fs.map .source)).unfolds_afterCalls calls
  have hstrategy := Strategy.greedyBy_correct cost
  obtain ⟨plans, st, hrun, h⟩ :=
    planQuery_spec options q ⟨.ofNodes id (fs.map .source), []⟩ hstrategy
  obtain ⟨plans', st', hrun', h'⟩ := planQuery_spec options q
    ⟨(JoinGraph.ofNodes id (fs.map .source)).afterCalls (calls.map GreedyCall.graphCall), []⟩
    hstrategy
  have halt : Alternatives _ q plans := h
  exact ⟨plans, plans', st, st', hrun, hrun',
    halt.pairwise_of_sources fun p => JoinGraph.source_of_mem_ofNodes,
    fun p => halt.exists_new h' hunfolds.grows, fun p => halt.exists_old h' hunfolds⟩

/-- The join of the first two hops has become a node, so each alternative is found with and without it. -/
theorem PlanM.hops_planned_again :
    ∃ plans st, planQuery {} .greedy Chain.query
        ⟨(JoinGraph.ofNodes ⟨1⟩ (Chain.fragments.map .source)).afterCalls
          ([⟨{}, Plan.estimate, Chain.query⟩].map GreedyCall.graphCall), []⟩ = .ok plans st ∧
      plans.length = 4 ∧ ¬plans.Nodup := by
  have hpasses : (planQuery {} .greedy Chain.query).passes
      ⟨(JoinGraph.ofNodes ⟨1⟩ (Chain.fragments.map .source)).afterCalls
        ([⟨{}, Plan.estimate, Chain.query⟩].map GreedyCall.graphCall), []⟩
      (fun plans _ => decide (plans.length = 4 ∧ ¬plans.Nodup)) = true := by decide +kernel
  obtain ⟨plans, st, hrun, hall⟩ := exists_of_passes hpasses
  exact ⟨plans, st, hrun, of_decide_eq_true hall⟩

end FedPlan
