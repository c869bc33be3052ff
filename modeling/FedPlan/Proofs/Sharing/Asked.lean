import FedPlan.Proofs.Sharing.AnyStrategy
import FedPlan.Proofs.Sharing.Overlaps

/-!
# What is planned as shared

Each turn of the reduction asks the strategy for its candidate, whatever has been answered before, and
the run ends early only if the strategy fails. So the subsets that a strategy is asked for are the
candidates up to some point, and these are known before the first one is planned.
-/

namespace FedPlan

namespace PlanM

variable {α β : Type} {st st' : Planning} {x : PlanM α} {f : α → PlanM β} {strategy : Strategy}
  {r : Reduction} {c : WordSet} {cs : List WordSet} {sets : List NodeSet}

/-- The sets that a strategy was asked for in the end, also if the computation fails. -/
def askedAfter (x : PlanM α) (st : Planning) : List NodeSet :=
  match x st with
  | .ok _ st' => st'.asked
  | .error _ st' => st'.asked

theorem askedAfter_of_ok {a : α} (h : x st = .ok a st') : x.askedAfter st = st'.asked := by
  rw [askedAfter, h]

theorem askedAfter_of_error {e : Failure} (h : x st = .error e st') :
    x.askedAfter st = st'.asked := by
  rw [askedAfter, h]

theorem askedAfter_congr {y : PlanM α} (h : x st = y st) : x.askedAfter st = y.askedAfter st := by
  rw [askedAfter, h, askedAfter]

theorem askedAfter_bind_ok {a : α} (h : x st = .ok a st') :
    (x >>= f).askedAfter st = (f a).askedAfter st' := by
  rw [askedAfter, bind_ok h, askedAfter]

/-! ## Steps that do not ask -/

/-- The computation asks for no plan. -/
def Silent (x : PlanM α) : Prop := ∀ st, x.askedAfter st = st.asked

theorem silent_pure (a : α) : Silent (pure a) := fun _ => rfl

theorem silent_graph : Silent graph := fun _ => rfl

theorem silent_addNode (p : Plan) : Silent (addNode p) := fun _ => rfl

theorem silent_ofExcept (e : Except Failure α) : Silent (ofExcept e) := by
  cases e with
  | ok a => exact silent_pure a
  | error e => exact fun _ => rfl

theorem askedAfter_bind_of_silent (hf : ∀ a, (f a).Silent) :
    (x >>= f).askedAfter st = x.askedAfter st := by
  rcases hx : x st with ⟨a, st'⟩ | ⟨e, st'⟩
  · rw [askedAfter_bind_ok hx, askedAfter_of_ok hx]
    exact hf a st'
  · rw [askedAfter_of_error (bind_error hx), askedAfter_of_error hx]

theorem Silent.bind (hx : x.Silent) (hf : ∀ a, (f a).Silent) : (x >>= f).Silent := by
  intro st
  rw [askedAfter_bind_of_silent hf, hx]

theorem askedAfter_ask (strategy : Strategy) (s : NodeSet) (st : Planning) :
    (ask strategy s).askedAfter st = st.asked ++ [s] :=
  silent_ofExcept (strategy st.graph s) { st with asked := st.asked ++ [s] }

/-! ## Turns and runs -/

theorem askedAfter_shareSubset (strategy : Strategy) (r : Reduction) (hc : st.graph.Holds c)
    (hsize : 2 ≤ c.size) :
    (shareSubset strategy r c).askedAfter st = st.asked ++ [st.graph.own c] := by
  have hplan : planSubset strategy (st.graph.own c) st = ask strategy (st.graph.own c) st :=
    planSubset_eq_ask (JoinGraph.owns_own hc) hsize
  rw [shareSubset, askedAfter_bind_ok (graph_eq st), askedAfter_bind_of_silent,
    askedAfter_congr hplan, askedAfter_ask]
  intro plan
  split
  · exact silent_pure r
  · refine silent_graph.bind fun _ => (silent_ofExcept _).bind fun _ => ?_
    split
    · exact (silent_addNode _).bind fun _ => silent_pure _
    · exact silent_pure r

theorem grows_shareSubset (strategy : Strategy) (r : Reduction) (c : WordSet) (st : Planning) :
    st.graph.Grows ((shareSubset strategy r c).graphAfter st) :=
  keeps_shareSubset (fun _ p hgrows => hgrows.trans (JoinGraph.add_grows _ p)) r c st (.refl _)

theorem askedAfter_foldlM (strategy : Strategy) (r : Reduction)
    (hcs : ∀ c ∈ cs, st.graph.Holds c ∧ 2 ≤ c.size) :
    ∃ ds, ds <+: cs ∧
      (cs.foldlM (shareSubset strategy) r).askedAfter st = st.asked ++ ds.map st.graph.own ∧
      ∀ r' st', cs.foldlM (shareSubset strategy) r st = .ok r' st' → ds = cs := by
  induction cs generalizing r st with
  | nil => exact ⟨[], List.nil_prefix, by simp [silent_pure r st], fun _ _ _ => rfl⟩
  | cons c cs ih =>
    obtain ⟨⟨hc, hsize⟩, hcs⟩ := List.forall_mem_cons.1 hcs
    have hasked := askedAfter_shareSubset strategy r hc hsize
    have hgrows := grows_shareSubset strategy r c st
    rw [List.foldlM_cons]
    rcases hturn : shareSubset strategy r c st with ⟨r₁, st₁⟩ | ⟨e, st₁⟩
    · rw [askedAfter_of_ok hturn] at hasked
      rw [graphAfter_of_ok hturn] at hgrows
      have hcs₁ : ∀ d ∈ cs, st₁.graph.Holds d ∧ 2 ≤ d.size := fun d hd =>
        ⟨hgrows.holds (hcs d hd).1, (hcs d hd).2⟩
      obtain ⟨ds, hprefix, hrest, hall⟩ := ih r₁ hcs₁
      -- The turn may have added a node, but the candidates belong to the same graph as before.
      have hown : st₁.graph.own = st.graph.own := by
        funext d
        rw [JoinGraph.own, hgrows.id_eq, JoinGraph.own]
      refine ⟨c :: ds, List.cons_prefix_cons.2 ⟨rfl, hprefix⟩, ?_, ?_⟩
      · rw [askedAfter_bind_ok hturn, hrest, hasked, hown, List.append_assoc,
          List.singleton_append, List.map_cons]
      · intro r' st' hrun
        rw [bind_ok hturn] at hrun
        rw [hall r' st' hrun]
    · rw [askedAfter_of_error hturn] at hasked
      refine ⟨[c], List.cons_prefix_cons.2 ⟨rfl, List.nil_prefix⟩, ?_, ?_⟩
      · rw [askedAfter_of_error (bind_error hturn), hasked, List.map_singleton]
      · intro r' st' hrun
        rw [bind_error hturn] at hrun
        cases hrun

/-- Whatever the strategy answers, it is asked for disjoint connected subsets, each of them contained in two of
the sets and split by none. -/
theorem reduce_asks (strategy : Strategy) (st : Planning) (hsets : ∀ s ∈ sets, st.graph.Owns s) :
    ∃ cs, (reduce strategy sets).askedAfter st = st.asked ++ cs.map st.graph.own ∧
      (∀ c ∈ cs, 2 ≤ c.size ∧ (∀ g, st.graph.Grows g → g.Connected c) ∧
        JoinGraph.WithinTwo sets c ∧ JoinGraph.Uniform sets c) ∧
      cs.Pairwise WordSet.Apart ∧ cs.Nodup ∧
      ∀ r st', reduce strategy sets st = .ok r st' →
        (r.shared.map fun n => n.members.members).Sublist cs := by
  have hall : ∀ c ∈ st.graph.candidates sets, st.graph.Holds c ∧ 2 ≤ c.size := fun c hc =>
    ⟨JoinGraph.holds_candidates hsets hc, JoinGraph.two_le_size_of_mem_candidates hc⟩
  obtain ⟨cs, hprefix, hasked, hfull⟩ := askedAfter_foldlM strategy ⟨[], sets⟩ hall
  have hfamily := JoinGraph.family_candidates st.graph sets
  refine ⟨cs, ?_, ?_, hfamily.apart.sublist hprefix.sublist, hfamily.nodup.sublist hprefix.sublist,
    ?_⟩
  · rw [askedAfter_congr (reduce_eq hsets), hasked]
  · intro c hc
    have hc := hprefix.subset hc
    obtain ⟨hholds, hshare⟩ := JoinGraph.shareable_candidates hsets c hc
    obtain ⟨hsize, hconn⟩ := JoinGraph.isShareable_iff.1 hshare
    exact ⟨hsize, fun g hgrows => (hgrows.connected_iff hholds).2 hconn,
      JoinGraph.withinTwo_candidates hc, JoinGraph.uniform_candidates hc⟩
  · intro r st' hrun
    have hchosen := (reduce_eq_ok hsets hrun).1
    rw [reduce_eq hsets] at hrun
    rwa [hfull r st' hrun]

end PlanM

namespace Row

open PlanM

/-- Takes the first hop for both of the first two, and fails for all other sets. -/
def halfhearted : Strategy := fun g s =>
  if s.members = .ofList [0, 1] then .ok (g.node? 0) else .error (.strategy "no plan")

/-- Only the middle hop, which belongs to all three sets, is not planned with others. -/
theorem competing_reduce_asks :
    (∀ s ∈ competing, graph.Owns s) ∧
    (reduce halfhearted competing).askedAfter ⟨graph, []⟩ =
      [graph.setOf [0, 1], graph.setOf [3, 4]] ∧
    (∀ g, graph.Grows g → g.Connected (.ofList [3, 4])) ∧
    JoinGraph.Uniform competing (.ofList [0, 1]) := by
  have hasked : (reduce halfhearted competing).askedAfter ⟨graph, []⟩ =
      [graph.setOf [0, 1], graph.setOf [3, 4]] := by decide +kernel
  obtain ⟨cs, hcs, hall, _⟩ := reduce_asks halfhearted ⟨graph, []⟩ competing_owned
  have hmembers : [WordSet.ofList [0, 1], .ofList [3, 4]] = cs := by
    have hmap := congrArg (List.map (·.members)) (hasked.symm.trans hcs)
    simpa [JoinGraph.own, JoinGraph.setOf, Function.comp_def] using hmap
  have hfirst := hall (.ofList [0, 1]) (by simp [← hmembers])
  have hsecond := hall (.ofList [3, 4]) (by simp [← hmembers])
  exact ⟨competing_owned, hasked, hsecond.2.1, hfirst.2.2.2⟩

end Row

end FedPlan
