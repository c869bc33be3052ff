import FedPlan.Alternatives
import FedPlan.Proofs.Component.SamePlans
import FedPlan.Proofs.LeafCounts
import FedPlan.Proofs.Sharing.Leaves

/-!
# Alternative plans

Sharing does not show in the plans of a query. Members of a component match different patterns, so a
shared node never is a member already when it is put into a component; all else that matters for the
plan stays as it was.
-/

namespace FedPlan

variable {g g' : JoinGraph} {q : Query} {s s' : NodeSet} {p : Plan} {ns : List SharedNode}
  {sets : List NodeSet}

theorem forall₂_of_common {α β γ : Type} {R : α → β → Prop} {R' : α → γ → Prop} {S : β → γ → Prop}
    {xs : List α} {ys : List β} {zs : List γ} (h : List.Forall₂ R xs ys)
    (h' : List.Forall₂ R' xs zs) (hS : ∀ {x y z}, R x y → R' x z → S y z) :
    List.Forall₂ S ys zs := by
  induction h generalizing zs with
  | nil =>
    cases h'
    exact .nil
  | cons hxy _ ih =>
    cases h' with
    | cons hxz hrest => exact .cons (hS hxy hxz) (ih hrest)

theorem exists_left_of_forall₂ {α β : Type} {R : α → β → Prop} {xs : List α} {ys : List β} {y : β}
    (h : List.Forall₂ R xs ys) (hy : y ∈ ys) : ∃ x ∈ xs, R x y := by
  induction h with
  | nil => cases hy
  | @cons a b xs ys hab _ ih =>
    rcases List.mem_cons.1 hy with rfl | hy
    · exact ⟨a, List.mem_cons_self, hab⟩
    · obtain ⟨x, hx, hxy⟩ := ih hy
      exact ⟨x, List.mem_cons_of_mem a hx, hxy⟩

theorem exists_right_of_forall₂ {α β : Type} {R : α → β → Prop} {xs : List α} {ys : List β} {x : α}
    (h : List.Forall₂ R xs ys) (hx : x ∈ xs) : ∃ y ∈ ys, R x y :=
  exists_left_of_forall₂ h.flip hx

/-! ## Sets that stand for components -/

/-- What is planned instead of a component: a set of the grown graph with the same leaves, that does
the same as the component. -/
structure Replaces (g : JoinGraph) (s : NodeSet) (g' : JoinGraph) (s' : NodeSet) : Prop where
  owns : g'.Owns s'
  stands : g.Stands s.members g' s'.members
  leaves : (g'.leavesOf s'.members).Perm (g.leavesOf s.members)

namespace Replaces

theorem of_rewriting (hs : IsComponent g q s) (h : g.Rewriting s ns g' s') :
    Replaces g s g' s' where
  owns := h.owns hs.owns
  stands := h.stands hs.owns
  leaves := h.leavesOf_perm_of_leavesApart hs.owns
    (JoinGraph.leavesApart_of_patternsApart hs.patternsApart)

theorem connected (h : Replaces g s g' s') (hs : IsComponent g q s) :
    g'.Connected s'.members := h.stands.connected.2 hs.connected

theorem openInputs_isEmpty (h : Replaces g s g' s') (hs : IsComponent g q s) :
    (g'.openInputs s'.members).isEmpty = true := by
  rw [h.stands.openInputs]
  exact hs.openInputs_isEmpty

theorem exists_mem (h : Replaces g s g' s') (hs : IsComponent g q s) : ∃ i, i ∈ s'.members := by
  obtain ⟨t, ht⟩ := List.exists_mem_of_ne_nil _ hs.query_ne_nil
  obtain ⟨p, hp, _⟩ := (h.stands.triples t).2 (hs.exists_triple_iff.2 ht)
  obtain ⟨i, hi, _⟩ := JoinGraph.mem_plansOf.1 hp
  exact ⟨i, hi⟩

end Replaces

/-- The plan joins the members of the component, and it answers the query without any input. -/
structure Answers (g : JoinGraph) (q : Query) (s : NodeSet) (p : Plan) : Prop where
  leaves : p.leaves.Perm (g.leavesOf s.members)
  triples : ∀ t, t ∈ p.triples ↔ t ∈ q.triples
  results : ∀ v, v ∈ p.results ↔ ∃ c ∈ g.plansOf s.members, v ∈ c.results
  required : p.required = ∅

theorem Replaces.answers (h : Replaces g s g' s') (hs : IsComponent g q s)
    (hp : p.Merges (g'.plansOf s'.members)) : Answers g q s p where
  leaves := hp.leaves.trans h.leaves
  triples := fun t => (hp.triples t).trans ((h.stands.triples t).trans hs.exists_triple_iff)
  results := fun v => (hp.results v).trans (h.stands.results v)
  required := by
    apply VarSet.ext
    intro v
    rw [JoinGraph.required_eq_openInputs hp]
    constructor
    · intro hv
      exact absurd hv (VarSet.isEmpty_iff_forall.1 (h.openInputs_isEmpty hs) v)
    · intro hv
      exact absurd hv (VarSet.not_mem_empty v)

/-! ## Checks -/

theorem JoinGraph.requireComponents_eq_ok (howns : ∀ s ∈ sets, g.Owns s)
    (hconn : ∀ s ∈ sets, g.Connected s.members)
    (hopen : ∀ s ∈ sets, (g.openInputs s.members).isEmpty = true) :
    g.requireComponents sets = .ok () := by
  rw [requireComponents, forM_eq_ok]
  intro s hs
  simp only [isConnected?_eq_ok (howns s hs), isConnected_iff.2 (hconn s hs),
    isSatisfied?_eq_ok (howns s hs), hopen s hs]
  rfl

namespace PlanM

variable {strategy : Strategy} {st st' : Planning} {options : Options}

/-! ## Planning one set -/

theorem planSubset_cases (hstrategy : strategy.Correct) (hs : st.graph.Owns s)
    (hne : ∃ i, i ∈ s.members) :
    ∃ asked, (∃ p, planSubset strategy s st = .ok (some p) { st with asked } ∧
        p.Merges (st.graph.plansOf s.members) ∧
        hasInputOrder (st.graph.plansOf s.members) = true) ∨
      planSubset strategy s st = .ok none { st with asked } ∧
        hasInputOrder (st.graph.plansOf s.members) = false := by
  by_cases hsize : 2 ≤ s.members.size
  · refine ⟨st.asked ++ [s], ?_⟩
    rw [planSubset_eq_ask hs hsize]
    rcases hstrategy st.graph s hs hsize with ⟨p, hp, hmerges, horder⟩ | ⟨hno, horder⟩
    · exact .inl ⟨p, ask_ok hp, hmerges, horder⟩
    · exact .inr ⟨ask_ok hno, horder⟩
  · obtain ⟨i, hone⟩ : ∃ i, s.members.toList = [i] := by
      obtain ⟨i, hi⟩ := hne
      have hpos := List.length_pos_of_mem (WordSet.mem_toList.2 hi)
      rw [WordSet.size_eq_length] at hsize
      exact List.length_eq_one_iff.1 (by omega)
    have hi : i ∈ s.members := WordSet.mem_toList.1 (by rw [hone]; exact List.mem_singleton.2 rfl)
    obtain ⟨p, hp⟩ := JoinGraph.exists_node (hs.holds i hi)
    have hplans : st.graph.plansOf s.members = [p] := by
      rw [JoinGraph.plansOf_eq_filterMap, hone, List.filterMap_cons_some hp, List.filterMap_nil]
    refine ⟨st.asked, .inl ⟨p, ?_, ?_, ?_⟩⟩
    · rw [planSubset_single hs hone, hp]
    · rw [hplans]
      exact Plan.merges_singleton p
    · rw [hplans]
      exact hasInputOrder_singleton p

theorem planComponent_cases (options : Options) (hstrategy : strategy.Correct) (hs : st.graph.Owns s)
    (hne : ∃ i, i ∈ s.members) :
    ∃ asked, (∃ p, planComponent options strategy s st = .ok (some p) { st with asked } ∧
        p.Merges (st.graph.plansOf s.members) ∧
        hasInputOrder (st.graph.plansOf s.members) = true) ∨
      planComponent options strategy s st = .ok none { st with asked } ∧
        hasInputOrder (st.graph.plansOf s.members) = false := by
  obtain ⟨asked, hcases⟩ := planSubset_cases hstrategy hs hne
  refine ⟨asked, ?_⟩
  rcases hcases with ⟨p, hplan, hmerges, horder⟩ | ⟨hplan, horder⟩
  · refine .inl ⟨p, ?_, hmerges, horder⟩
    rw [planComponent, bind_ok hplan]
    by_cases hverify : options.verify = true
    · simp only [hverify, if_true]
      rw [bind_ok (graph_eq _), (JoinGraph.verifyPlan_eq_ok_iff hs).2 hmerges]
      rfl
    · simp only [hverify]
      rfl
  · refine .inr ⟨?_, horder⟩
    rw [planComponent, bind_ok hplan]
    rfl

theorem filterMapM_planComponent (st : Planning) (options : Options)
    (hstrategy : strategy.Correct)
    (hsets : ∀ s ∈ sets, st.graph.Owns s ∧ ∃ i, i ∈ s.members) :
    ∃ plans asked,
      sets.filterMapM (planComponent options strategy) st = .ok plans { st with asked } ∧
      List.Forall₂ (fun s p => p.Merges (st.graph.plansOf s.members))
        (sets.filter fun s => hasInputOrder (st.graph.plansOf s.members)) plans := by
  induction sets generalizing st with
  | nil => exact ⟨[], st.asked, rfl, .nil⟩
  | cons s sets ih =>
    obtain ⟨⟨hs, hne⟩, hsets⟩ := List.forall_mem_cons.1 hsets
    obtain ⟨asked, hcases⟩ := planComponent_cases options hstrategy hs hne
    obtain ⟨plans, asked', hrun, hplans⟩ := ih { st with asked } hsets
    rw [List.filterMapM_cons]
    rcases hcases with ⟨p, hplan, hmerges, horder⟩ | ⟨hplan, horder⟩
    · refine ⟨p :: plans, asked', ?_, ?_⟩
      · rw [bind_ok hplan]
        exact bind_ok hrun
      · simp only [List.filter_cons, horder, if_true]
        exact .cons hmerges hplans
    · refine ⟨plans, asked', ?_, ?_⟩
      · rw [bind_ok hplan]
        exact hrun
      · simp only [List.filter_cons, horder, Bool.false_eq_true, if_false]
        exact hplans

/-! ## Sharing and planning -/

theorem shareComponents_spec (hstrategy : strategy.Correct) {components : List NodeSet}
    (hcomp : ∀ s ∈ components, IsComponent st.graph q s) :
    ∃ ns st', shareComponents options strategy components st =
        .ok (components.map (·.replaceAll ns)) st' ∧
      ∀ s ∈ components, Replaces st.graph s st'.graph (s.replaceAll ns) := by
  have howns : ∀ s ∈ components, st.graph.Owns s := fun s hs => (hcomp s hs).owns
  obtain ⟨r, st', hrun, hran⟩ := reduce_spec st hstrategy howns
  have hreplaces : ∀ s ∈ components, Replaces st.graph s st'.graph (s.replaceAll r.shared) :=
    fun s hs => .of_rewriting (hcomp s hs) (hran.rewriting s hs)
  refine ⟨r.shared, st', ?_, hreplaces⟩
  have howned := hran.owned howns
  have hcheck : st'.graph.requireComponents r.reduced = .ok () := by
    have hreduced : ∀ s' ∈ r.reduced, ∃ s, IsComponent st.graph q s ∧
        Replaces st.graph s st'.graph s' := by
      intro s' hs'
      obtain ⟨s, hs, hrewriting⟩ := hran.exists_rewriting hs'
      exact ⟨s, hcomp s hs, .of_rewriting (hcomp s hs) hrewriting⟩
    refine JoinGraph.requireComponents_eq_ok howned.reduced ?_ ?_
    · intro s' hs'
      obtain ⟨s, hs, hreplaces⟩ := hreduced s' hs'
      exact hreplaces.connected hs
    · intro s' hs'
      obtain ⟨s, hs, hreplaces⟩ := hreduced s' hs'
      exact hreplaces.openInputs_isEmpty hs
  rw [shareComponents, bind_ok hrun, ← hran.reduced]
  by_cases hverify : options.verify = true
  · simp only [hverify, if_true]
    rw [bind_ok (check_ok (JoinGraph.requireDisjoint_shared howned) st'), bind_ok (graph_eq st'),
      bind_ok (check_ok hcheck st')]
    rfl
  · simp only [hverify, Bool.false_eq_true, if_false]
    rfl

/-- What is planned stands for the components, whether they have been shared or not. -/
theorem planned_spec (options : Options) (hstrategy : strategy.Correct) {components : List NodeSet}
    (hcomp : ∀ s ∈ components, IsComponent st.graph q s) :
    ∃ ns st', (if options.share && decide (1 < components.length) then
          shareComponents options strategy components
        else pure components) st = .ok (components.map (·.replaceAll ns)) st' ∧
      ∀ s ∈ components, Replaces st.graph s st'.graph (s.replaceAll ns) := by
  split
  · exact shareComponents_spec hstrategy hcomp
  · refine ⟨[], st, ?_, fun s hs => .of_rewriting (hcomp s hs) (.done st.graph s)⟩
    rw [show (fun s : NodeSet => s.replaceAll []) = id from rfl, List.map_id]
    rfl

theorem answers_of_merges {components : List NodeSet} {plans : List Plan}
    (hcomp : ∀ s ∈ components, IsComponent g q s)
    (hreplaces : ∀ s ∈ components, Replaces g s g' (s.replaceAll ns))
    (hplans : List.Forall₂ (fun s p => p.Merges (g'.plansOf s.members))
      ((components.map (·.replaceAll ns)).filter fun s => hasInputOrder (g'.plansOf s.members))
      plans) :
    List.Forall₂ (Answers g q)
      (components.filter fun s => hasInputOrder (g.plansOf s.members)) plans := by
  have hfilter : components.filter (fun s => hasInputOrder (g'.plansOf (s.replaceAll ns).members)) =
      components.filter fun s => hasInputOrder (g.plansOf s.members) :=
    List.filter_congr fun s hs => (hreplaces s hs).stands.ordered
  rw [List.filter_map, List.forall₂_map_left_iff] at hplans
  simp only [Function.comp_def, hfilter] at hplans
  have hmem : ∀ s ∈ components.filter (fun s => hasInputOrder (g.plansOf s.members)),
      s ∈ components := fun s hs => (List.mem_filter.1 hs).1
  refine ((List.forall₂_and_left _ _).2 ⟨hmem, hplans⟩).imp ?_
  intro s p h
  exact (hreplaces s h.1).answers (hcomp s h.1) h.2

theorem planQuery_spec (options : Options) (q : Query) (st : Planning)
    (hstrategy : strategy.Correct) :
    ∃ plans st', planQuery options strategy q st = .ok plans st' ∧
      List.Forall₂ (Answers st.graph q)
        ((st.graph.components q).filter fun s => hasInputOrder (st.graph.plansOf s.members))
        plans := by
  have hcomp : ∀ s ∈ st.graph.components q, IsComponent st.graph q s :=
    fun s hs => JoinGraph.mem_components.1 hs
  have hcheck : st.graph.requireComponents (st.graph.components q) = .ok () :=
    JoinGraph.requireComponents_eq_ok (fun s hs => (hcomp s hs).owns)
      (fun s hs => (hcomp s hs).connected) fun s hs => (hcomp s hs).openInputs_isEmpty
  obtain ⟨ns, st₁, hshare, hreplaces⟩ := planned_spec options hstrategy hcomp
  have hsets : ∀ s' ∈ (st.graph.components q).map (·.replaceAll ns),
      st₁.graph.Owns s' ∧ ∃ i, i ∈ s'.members := by
    rw [List.forall_mem_map]
    exact fun s hs => ⟨(hreplaces s hs).owns, (hreplaces s hs).exists_mem (hcomp s hs)⟩
  obtain ⟨plans, asked, hrun, hplans⟩ := filterMapM_planComponent st₁ options hstrategy hsets
  refine ⟨plans, { st₁ with asked }, ?_, ?_⟩
  · rw [planQuery, bind_ok (graph_eq st), ite_bind]
    by_cases hverify : options.verify = true
    · simp only [hverify, if_true]
      rw [bind_ok (graph_eq st), bind_ok (check_ok hcheck st), bind_ok hshare]
      exact hrun
    · simp only [hverify, Bool.false_eq_true, if_false]
      rw [bind_ok hshare]
      exact hrun
  · exact answers_of_merges hcomp hreplaces hplans

/-- Whatever the options, the plans answer the components that have an input order, one each and in their
order. So sharing does not change what they join. -/
theorem planQuery_transparent (cost : Plan → Cardinality) (g : JoinGraph) (q : Query)
    (asked : List NodeSet) :
    ∃ plans : Options → List Plan,
      (∀ options, ∃ st, planQuery options (.greedyBy cost) q ⟨g, asked⟩ = .ok (plans options) st ∧
        List.Forall₂ (Answers g q)
          ((g.components q).filter fun s => hasInputOrder (g.plansOf s.members))
          (plans options)) ∧
      ∀ options options', List.Forall₂ (fun p p' => p.leaves.Perm p'.leaves) (plans options)
        (plans options') := by
  have hspec := fun options =>
    planQuery_spec options q ⟨g, asked⟩ (Strategy.greedyBy_correct cost)
  choose plans st hplans using hspec
  refine ⟨plans, fun options => ⟨st options, hplans options⟩, ?_⟩
  intro options options'
  exact forall₂_of_common (hplans options).2 (hplans options').2
    fun h h' => h.leaves.trans h'.leaves.symm

end PlanM

end FedPlan
