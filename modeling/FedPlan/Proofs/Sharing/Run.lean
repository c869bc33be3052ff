import FedPlan.Proofs.Planning
import FedPlan.Proofs.Sharing.Candidates
import FedPlan.Proofs.Sharing.Substitution
import FedPlan.Sharing.Reduction

/-!
# Runs of the reduction

One turn plans a candidate and either replaces it in all sets or leaves everything but the record as
it was. From the turns follows what a run makes of each of the given sets: the shared nodes are put
into it one after another, while the graph grows.
-/

namespace FedPlan

theorem allM_ok {ε α : Type} {f : α → Except ε Bool} {f' : α → Bool} {xs : List α}
    (h : ∀ x ∈ xs, f x = .ok (f' x)) : xs.allM f = .ok (xs.all f') := by
  induction xs with
  | nil => rfl
  | cons x xs ih =>
    obtain ⟨hx, hxs⟩ := List.forall_mem_cons.1 h
    rw [List.allM, hx, List.all_cons]
    cases hfx : f' x with
    | true => exact ih hxs
    | false => rfl

namespace JoinGraph

variable {g g' g'' : JoinGraph} {s s' : NodeSet} {members : WordSet} {p : Plan}
  {ns : List SharedNode} {n : SharedNode} {position : Nat}

/-- Whether a set still has an input order with the plan in place of the members, if it had one. -/
def keepsOrder (g : JoinGraph) (members : WordSet) (p : Plan) (s : WordSet) : Bool :=
  !members.isSubset s || hasInputOrder (g.plansOf (s \ members) ++ [p]) ||
    !hasInputOrder (g.plansOf s)

theorem keepsOrder?_eq_ok (hs : g.Owns s) :
    g.keepsOrder? members p s = .ok (g.keepsOrder members p s.members) := by
  have hrest : g.Owns { s with members := s.members \ members } :=
    ⟨hs.owner, fun n hn => hs.holds n (WordSet.mem_sdiff.1 hn).1⟩
  rw [keepsOrder?, membersOf_eq_ok hrest, membersOf_eq_ok hs, keepsOrder]
  cases members.isSubset s.members with
  | false => rfl
  | true =>
    simp only [bind, Except.bind, Bool.not_true, Bool.false_or, Bool.false_eq_true, if_false]
    cases hasInputOrder (g.plansOf (s.members \ members) ++ [p]) with
    | false => rfl
    | true => rfl

theorem order_of_keepsOrder {s : WordSet} (h : g.keepsOrder members p s = true)
    (hsub : ∀ n ∈ members, n ∈ s) (horder : hasInputOrder (g.plansOf s) = true) :
    hasInputOrder (g.plansOf (s \ members) ++ [p]) = true := by
  rw [keepsOrder, WordSet.isSubset_iff.2 hsub, horder] at h
  simpa using h

/-! ## One set during a run -/

theorem owner_replace : (s.replace members position).owner = s.owner := by
  rw [NodeSet.replace]
  split <;> rfl

theorem members_replace_of_subset (h : ∀ n ∈ members, n ∈ s.members) :
    (s.replace members position).members = (s.members \ members).insert position := by
  rw [NodeSet.replace, if_pos (WordSet.isSubset_iff.2 h)]

theorem replace_of_not_subset (h : ¬∀ n ∈ members, n ∈ s.members) :
    s.replace members position = s := by
  rw [NodeSet.replace, if_neg]
  rwa [WordSet.isSubset_iff]

theorem mem_of_mem_replace {x : Nat} (hx : x ∈ (s.replace members position).members) :
    x = position ∨ x ∈ s.members ∧ ((∀ n ∈ members, n ∈ s.members) → x ∉ members) := by
  by_cases hsub : ∀ n ∈ members, n ∈ s.members
  · rw [members_replace_of_subset hsub, WordSet.mem_insert, WordSet.mem_sdiff] at hx
    exact hx.imp_right fun hmem => ⟨hmem.1, fun _ => hmem.2⟩
  · rw [replace_of_not_subset hsub] at hx
    exact .inr ⟨hx, fun h => absurd h hsub⟩

theorem mem_replace_of_not_mem {x : Nat} (hx : x ∈ s.members) (hnot : x ∉ members) :
    x ∈ (s.replace members position).members := by
  by_cases hsub : ∀ n ∈ members, n ∈ s.members
  · rw [members_replace_of_subset hsub]
    exact WordSet.mem_insert.2 (.inr (WordSet.mem_sdiff.2 ⟨hx, hnot⟩))
  · rwa [replace_of_not_subset hsub]

/-- The shared nodes are put into a set of the first graph one after another; the graph grows to the
second one, and the set keeps its input order. -/
inductive Rewriting : JoinGraph → NodeSet → List SharedNode → JoinGraph → NodeSet → Prop
  | done (g : JoinGraph) (s : NodeSet) : Rewriting g s [] g s
  | share {g g' g'' : JoinGraph} {s s' : NodeSet} {n : SharedNode} {ns : List SharedNode}
      (hnode : g.Substitutes g' n.members.members n.plan n.position)
      (horder : hasInputOrder (g.plansOf n.members.members) = true)
      (hkeep : g.keepsOrder n.members.members n.plan s.members = true)
      (hrest : Rewriting g' (s.replace n.members.members n.position) ns g'' s') :
      Rewriting g s (n :: ns) g'' s'

theorem Substitutes.owns_replace (h : g.Substitutes g' members p position) (hs : g.Owns s) :
    g'.Owns (s.replace members position) := by
  refine ⟨owner_replace.trans (hs.owner.trans h.grows.id_eq.symm), ?_⟩
  by_cases hsub : ∀ n ∈ members, n ∈ s.members
  · rw [members_replace_of_subset hsub]
    exact h.holds_replaced hs.holds
  · rw [replace_of_not_subset hsub]
    exact h.grows.holds hs.holds

theorem Substitutes.stands_replace (h : g.Substitutes g' members p position) (hs : g.Owns s)
    (horder : hasInputOrder (g.plansOf members) = true)
    (hkeep : g.keepsOrder members p s.members = true) :
    g.Stands s.members g' (s.replace members position).members := by
  by_cases hsub : ∀ n ∈ members, n ∈ s.members
  · rw [members_replace_of_subset hsub]
    exact h.stands hs.holds hsub horder (order_of_keepsOrder hkeep hsub)
  · rw [replace_of_not_subset hsub]
    exact h.grows.stands hs.holds

namespace Rewriting

theorem grows (h : Rewriting g s ns g' s') : g.Grows g' := by
  induction h with
  | done g => exact .refl g
  | share hnode _ _ _ ih => exact hnode.grows.trans ih

theorem owns (h : Rewriting g s ns g' s') (hs : g.Owns s) : g'.Owns s' := by
  induction h with
  | done => exact hs
  | share hnode _ _ _ ih => exact ih (hnode.owns_replace hs)

theorem stands (h : Rewriting g s ns g' s') (hs : g.Owns s) :
    g.Stands s.members g' s'.members := by
  induction h with
  | done g => exact (Grows.refl g).stands hs.holds
  | share hnode horder hkeep _ ih =>
    exact (hnode.stands_replace hs horder hkeep).trans (ih (hnode.owns_replace hs))

theorem mem_or_position (h : Rewriting g s ns g' s') {x : Nat} (hx : x ∈ s'.members) :
    x ∈ s.members ∨ ∃ n ∈ ns, n.position = x := by
  induction h with
  | done => exact .inl hx
  | @share g g' g'' s s' n ns _ _ _ _ ih =>
    rcases ih hx with hmem | ⟨k, hk, hpos⟩
    · rcases mem_of_mem_replace hmem with he | ⟨hmem, _⟩
      · exact .inr ⟨n, List.mem_cons_self, he.symm⟩
      · exact .inl hmem
    · exact .inr ⟨k, List.mem_cons_of_mem n hk, hpos⟩

end Rewriting

end JoinGraph

/-! ## Turns -/

namespace PlanM

variable {strategy : Strategy} {st : Planning} {r : Reduction} {c : WordSet}

/-- What a shareable subset becomes in the reduction when it is replaced. -/
def withShared (r : Reduction) (subset : NodeSet) (position : Nat) (p : Plan) : Reduction where
  shared := r.shared ++ [{ members := subset, position, plan := p }]
  reduced := r.reduced.map (·.replace subset.members position)

theorem shareSubset_none (hc : st.graph.Holds c) (hsize : 2 ≤ c.size)
    (hplan : strategy st.graph (st.graph.own c) = .ok none) :
    shareSubset strategy r c st =
      .ok r { st with asked := st.asked ++ [st.graph.own c] } := by
  rw [shareSubset, bind_ok (graph_eq st),
    bind_ok ((planSubset_eq_ask (JoinGraph.owns_own hc) hsize).trans (ask_ok hplan))]
  rfl

theorem shareSubset_error {e : Failure} (hc : st.graph.Holds c) (hsize : 2 ≤ c.size)
    (hplan : strategy st.graph (st.graph.own c) = .error e) :
    shareSubset strategy r c st =
      .error e { st with asked := st.asked ++ [st.graph.own c] } := by
  rw [shareSubset, bind_ok (graph_eq st),
    bind_error ((planSubset_eq_ask (JoinGraph.owns_own hc) hsize).trans (ask_error hplan))]

theorem shareSubset_some {p : Plan} (hr : ∀ s ∈ r.reduced, st.graph.Owns s)
    (hc : st.graph.Holds c) (hsize : 2 ≤ c.size)
    (hplan : strategy st.graph (st.graph.own c) = .ok (some p)) :
    shareSubset strategy r c st =
      if r.reduced.all (fun s => st.graph.keepsOrder c p s.members) then
        .ok (withShared r (st.graph.own c) (st.graph.add p).2 p)
          { graph := (st.graph.add p).1, asked := st.asked ++ [st.graph.own c] }
      else .ok r { st with asked := st.asked ++ [st.graph.own c] } := by
  have hall : r.reduced.allM (st.graph.keepsOrder? c p) =
      .ok (r.reduced.all fun s => st.graph.keepsOrder c p s.members) :=
    allM_ok fun s hs => JoinGraph.keepsOrder?_eq_ok (hr s hs)
  rw [shareSubset, bind_ok (graph_eq st),
    bind_ok ((planSubset_eq_ask (JoinGraph.owns_own hc) hsize).trans (ask_ok hplan))]
  simp only [bind_ok (graph_eq _), bind_ok (check_ok hall _)]
  split
  · rfl
  · rfl

/-- A turn of a correct strategy either changes nothing or puts one more node into each set. -/
theorem shareSubset_cases (hstrategy : strategy.Correct) (hr : ∀ s ∈ r.reduced, st.graph.Owns s)
    (hc : st.graph.Holds c) (hshare : st.graph.isShareable c = true) :
    shareSubset strategy r c st = .ok r { st with asked := st.asked ++ [st.graph.own c] } ∨
    ∃ p, st.graph.Substitutes (st.graph.add p).1 c p (st.graph.add p).2 ∧
      hasInputOrder (st.graph.plansOf c) = true ∧
      (∀ s ∈ r.reduced, st.graph.keepsOrder c p s.members = true) ∧
      shareSubset strategy r c st =
        .ok (withShared r (st.graph.own c) (st.graph.add p).2 p)
          { graph := (st.graph.add p).1, asked := st.asked ++ [st.graph.own c] } := by
  have hsize := (JoinGraph.isShareable_iff.1 hshare).1
  rcases hstrategy st.graph (st.graph.own c) (JoinGraph.owns_own hc) hsize with
    ⟨p, hplan, hmerges, horder⟩ | ⟨hplan, _⟩
  · have heq := shareSubset_some hr hc hsize hplan
    by_cases hkeep : r.reduced.all (fun s => st.graph.keepsOrder c p s.members) = true
    · rw [if_pos hkeep] at heq
      exact .inr ⟨p, ⟨JoinGraph.add_grows st.graph p, hc, hshare, hmerges,
        JoinGraph.node?_add st.graph p⟩, horder, List.all_eq_true.1 hkeep, heq⟩
    · rw [if_neg hkeep] at heq
      exact .inl heq
  · exact .inl (shareSubset_none hc hsize hplan)

end PlanM

/-! ## Runs -/

/-- Puts the shared nodes into the set one after another. -/
def NodeSet.replaceAll (s : NodeSet) (ns : List SharedNode) : NodeSet :=
  ns.foldl (fun s n => s.replace n.members.members n.position) s

namespace JoinGraph

variable {g g' g'' : JoinGraph} {r r' : Reduction} {cs : List WordSet} {c : WordSet}
  {ns : List SharedNode}

theorem Grows.isShareable_eq (h : g.Grows g') (hc : g.Holds c) :
    g'.isShareable c = g.isShareable c := by
  rw [Bool.eq_iff_iff, isShareable_iff, isShareable_iff, h.connected_iff hc]

theorem Grows.shareable (h : g.Grows g') (hc : g.Holds c ∧ g.isShareable c = true) :
    g'.Holds c ∧ g'.isShareable c = true :=
  ⟨h.holds hc.1, (h.isShareable_eq hc.1).trans hc.2⟩

theorem shareable_candidates {sets : List NodeSet} (hsets : ∀ s ∈ sets, g.Owns s) :
    ∀ c ∈ g.candidates sets, g.Holds c ∧ g.isShareable c = true := fun c hc =>
  ⟨holds_candidates hsets hc, (family_candidates g sets).shareable c hc⟩

theorem Substitutes.owns_withShared {p : Plan} {position : Nat}
    (h : g.Substitutes g' c p position) (hr : ∀ s ∈ r.reduced, g.Owns s) :
    ∀ s' ∈ (PlanM.withShared r (g.own c) position p).reduced, g'.Owns s' := by
  intro s' hs'
  obtain ⟨s, hs, rfl⟩ := List.mem_map.1 hs'
  exact h.owns_replace (hr s hs)

/-- From one reduction to another, the shared nodes `ns` have been chosen among the candidates and
put into each set. -/
structure Ran (g : JoinGraph) (r : Reduction) (cs : List WordSet) (g' : JoinGraph) (r' : Reduction)
    (ns : List SharedNode) : Prop where
  grows : g.Grows g'
  shared : r'.shared = r.shared ++ ns
  chosen : (ns.map fun n => n.members.members).Sublist cs
  owner : ∀ n ∈ ns, n.members.owner = g.id
  reduced : r'.reduced = r.reduced.map (·.replaceAll ns)
  rewriting : ∀ s ∈ r.reduced, g.Rewriting s ns g' (s.replaceAll ns)

theorem ran_nil (g : JoinGraph) (r : Reduction) : g.Ran r [] g r [] where
  grows := .refl g
  shared := (List.append_nil _).symm
  chosen := .slnil
  owner := by simp
  reduced := (List.map_id' _).symm
  rewriting := fun s _ => .done g s

theorem Ran.skip (h : g.Ran r cs g' r' ns) : g.Ran r (c :: cs) g' r' ns :=
  { h with chosen := h.chosen.cons c }

theorem Ran.share {p : Plan} {position : Nat} (hnode : g.Substitutes g' c p position)
    (horder : hasInputOrder (g.plansOf c) = true)
    (hkeep : ∀ s ∈ r.reduced, g.keepsOrder c p s.members = true)
    (h : g'.Ran (PlanM.withShared r (g.own c) position p) cs g'' r' ns) :
    g.Ran r (c :: cs) g'' r' ({ members := g.own c, position, plan := p } :: ns) where
  grows := hnode.grows.trans h.grows
  shared := by rw [h.shared, PlanM.withShared, List.append_assoc, List.singleton_append]
  chosen := h.chosen.cons_cons c
  owner := by
    intro n hn
    rcases List.mem_cons.1 hn with he | hn
    · rw [he]
      rfl
    · rw [h.owner n hn, hnode.grows.id_eq]
  reduced := by
    rw [h.reduced, PlanM.withShared, List.map_map]
    rfl
  rewriting := by
    intro s hs
    exact .share hnode horder (hkeep s hs) (h.rewriting _ (List.mem_map_of_mem hs))

theorem Ran.exists_rewriting {s' : NodeSet} (h : g.Ran r cs g' r' ns) (hs' : s' ∈ r'.reduced) :
    ∃ s ∈ r.reduced, g.Rewriting s ns g' s' := by
  rw [h.reduced] at hs'
  obtain ⟨s, hs, rfl⟩ := List.mem_map.1 hs'
  exact ⟨s, hs, h.rewriting s hs⟩

theorem Ran.rewriting_at {i : Nat} {s s' : NodeSet} (h : g.Ran r cs g' r' ns)
    (hs : r.reduced[i]? = some s) (hs' : r'.reduced[i]? = some s') : g.Rewriting s ns g' s' := by
  rw [h.reduced, List.getElem?_map, hs] at hs'
  cases hs'
  exact h.rewriting s (List.mem_of_getElem? hs)

theorem Ran.mem_candidates {sets : List NodeSet}
    (h : g.Ran ⟨[], sets⟩ (g.candidates sets) g' r r.shared) {n : SharedNode}
    (hn : n ∈ r.shared) : n.members.members ∈ g.candidates sets :=
  h.chosen.subset (List.mem_map_of_mem hn)

end JoinGraph

/-- The sets of a reduction belong to the graph, and the shared subsets are disjoint. -/
structure Reduction.Owned (r : Reduction) (g : JoinGraph) : Prop where
  shared : ∀ n ∈ r.shared, g.Owns n.members
  reduced : ∀ s ∈ r.reduced, g.Owns s
  apart : r.shared.Pairwise fun m n => m.members.members.Apart n.members.members

namespace JoinGraph

variable {g g' : JoinGraph} {r : Reduction} {sets : List NodeSet}

theorem Ran.owned (h : g.Ran ⟨[], sets⟩ (g.candidates sets) g' r r.shared)
    (hsets : ∀ s ∈ sets, g.Owns s) : r.Owned g' where
  shared := fun n hn =>
    ⟨(h.owner n hn).trans h.grows.id_eq.symm,
      h.grows.holds (holds_candidates hsets (h.mem_candidates hn))⟩
  reduced := by
    intro s' hs'
    obtain ⟨s, hs, hrewriting⟩ := h.exists_rewriting hs'
    exact hrewriting.owns (hsets s hs)
  apart := List.pairwise_map.1 ((family_candidates g sets).apart.sublist h.chosen)

theorem requireDisjoint_shared (h : r.Owned g) :
    requireDisjoint (r.shared.map (·.members)) = .ok () := by
  refine requireDisjoint_eq_ok (g := g) ?_ (List.pairwise_map.2 h.apart)
  intro s hs
  obtain ⟨n, hn, rfl⟩ := List.mem_map.1 hs
  exact h.shared n hn

end JoinGraph

namespace PlanM

variable {strategy : Strategy} {st : Planning} {r : Reduction} {cs : List WordSet}
  {sets : List NodeSet}

theorem foldlM_shareSubset (st : Planning) (hstrategy : strategy.Correct)
    (hr : ∀ s ∈ r.reduced, st.graph.Owns s)
    (hcs : ∀ c ∈ cs, st.graph.Holds c ∧ st.graph.isShareable c = true) :
    ∃ r' st' ns, cs.foldlM (shareSubset strategy) r st = .ok r' st' ∧
      st.graph.Ran r cs st'.graph r' ns := by
  induction cs generalizing r st with
  | nil => exact ⟨r, st, [], rfl, JoinGraph.ran_nil st.graph r⟩
  | cons c cs ih =>
    obtain ⟨⟨hc, hshare⟩, hcs⟩ := List.forall_mem_cons.1 hcs
    rw [List.foldlM_cons]
    rcases shareSubset_cases hstrategy hr hc hshare with heq | ⟨p, hnode, horder, hkeep, heq⟩
    · obtain ⟨r', st', ns, hrun, hran⟩ :=
        ih { st with asked := st.asked ++ [st.graph.own c] } hr hcs
      exact ⟨r', st', ns, (bind_ok heq).trans hrun, hran.skip⟩
    · have hgrows := hnode.grows
      obtain ⟨r', st', ns, hrun, hran⟩ := ih
        { graph := (st.graph.add p).1, asked := st.asked ++ [st.graph.own c] }
        (hnode.owns_withShared hr) fun d hd => hgrows.shareable (hcs d hd)
      exact ⟨r', st', _, (bind_ok heq).trans hrun, hran.share hnode horder hkeep⟩

theorem reduce_eq (hsets : ∀ s ∈ sets, st.graph.Owns s) :
    reduce strategy sets st =
      (st.graph.candidates sets).foldlM (shareSubset strategy) ⟨[], sets⟩ st := by
  rw [reduce, bind_ok (graph_eq st), bind_ok (check_ok (JoinGraph.sharedSubsets?_eq_ok hsets) st)]
  rfl

/-- With a correct strategy the reduction of sets of the graph does not fail. -/
theorem reduce_spec (st : Planning) (hstrategy : strategy.Correct)
    (hsets : ∀ s ∈ sets, st.graph.Owns s) :
    ∃ r st', reduce strategy sets st = .ok r st' ∧
      st.graph.Ran ⟨[], sets⟩ (st.graph.candidates sets) st'.graph r r.shared := by
  obtain ⟨r, st', ns, hrun, hran⟩ := foldlM_shareSubset (r := ⟨[], sets⟩) st hstrategy hsets
    (JoinGraph.shareable_candidates hsets)
  have hshared : r.shared = ns := hran.shared
  exact ⟨r, st', (reduce_eq hsets).trans hrun, hshared ▸ hran⟩

end PlanM

end FedPlan
