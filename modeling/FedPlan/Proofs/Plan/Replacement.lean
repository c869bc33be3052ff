import FedPlan.Plan.Rebuild
import FedPlan.Proofs.Plan.LeafSequence

/-!
# Replaced leaves

A traversal from the bottom up puts another plan in the place of the leaves of one source, and the joins
above them are built anew. If the other plan has the signature of these leaves, each join can be built
again and stores what it has stored before. If not, a join may be refused; a plan that comes out
nevertheless has the leaves that it should have, and its joins store what follows from their new sides.
-/

namespace FedPlan

namespace PlanTree

variable {s : String} {t w : PlanTree}

/-- The tree with the leaves of a source exchanged. The joins above them keep what they store. -/
def substitute (s : String) (w : PlanTree) : PlanTree → PlanTree
  | .source f => if f.source = s then w else .source f
  | .join l r shape => .join (substitute s w l) (substitute s w r) shape

/-- The two sides of each join, and what the join stores. -/
def joins : PlanTree → List (PlanTree × PlanTree × JoinShape)
  | .source _ => []
  | .join l r shape => (l, r, shape) :: (l.joins ++ r.joins)

theorem accepted_iff_joins : t.Accepted ↔ ∀ l r shape, (l, r, shape) ∈ t.joins →
    JoinShape.of? l.signature r.signature = .ok shape := by
  induction t with
  | source g => simp [Accepted, joins]
  | join l r shape hl hr =>
    simp only [Accepted, joins, hl, hr, List.mem_cons, List.mem_append, Prod.mk.injEq]
    constructor
    · intro h a b s hmem
      obtain ⟨hleft, hright, hshape⟩ := h
      rcases hmem with ⟨rfl, rfl, rfl⟩ | hmem | hmem
      · exact hshape
      · exact hleft a b s hmem
      · exact hright a b s hmem
    · intro h
      refine ⟨?_, ?_, ?_⟩
      · exact fun a b s hmem => h a b s (.inr (.inl hmem))
      · exact fun a b s hmem => h a b s (.inr (.inr hmem))
      · exact h l r shape (.inl ⟨rfl, rfl, rfl⟩)

theorem signature_substitute (h : ∀ g ∈ t.leaves, g.source = s → w.signature = g.signature) :
    (substitute s w t).signature = t.signature := by
  cases t with
  | source g =>
    rw [substitute]
    split
    · next hg => exact h g List.mem_cons_self hg
    · rfl
  | join l r shape => rfl

end PlanTree

namespace Plan

variable {traverse : Transformation → Transformation} {step : Transformation} {s : String}
  {l r p q w : Plan} {l' r' result : Transformed}

/-! ## New inputs -/

theorem inputs_of_join? (h : l.join? r = .ok p) : p.inputs = [l, r] := by
  obtain ⟨shape, hroot, _⟩ := exists_root_of_join? h
  rw [inputs, hroot]

theorem withInputs?_pair_eq_ok_iff (h : l.join? r = .ok p) (l' r' : Plan) :
    p.withInputs? [l', r'] = .ok q ↔ l'.join? r' = .ok q := by
  obtain ⟨shape, hroot, _⟩ := exists_root_of_join? h
  simp only [withInputs?, hroot]
  cases l'.join? r' with
  | error e => simp [Except.mapError]
  | ok q' => simp [Except.mapError]

theorem withInputs?_inputs (p : Plan) : p.withInputs? p.inputs = .ok p := by
  induction p using Plan.induct with
  | source f => rfl
  | join l r p h _ _ => rw [inputs_of_join? h, withInputs?_pair_eq_ok_iff h, h]

/-! ## Traversals -/

theorem takeTurn_nil (step : Transformation) (p : Plan) : takeTurn step p [] = step p := by
  show (step p >>= fun result => pure { result with changed := false || result.changed }) = step p
  cases step p <;> rfl

theorem bottomUp_transformUp : BottomUp transformUp where
  traverse_eq := by
    intro step p
    obtain ⟨tree, accepted⟩ := p
    cases tree with
    | source f => rfl
    | join l r shape =>
      simp only [inputs, root, List.mapM_cons, List.mapM_nil, bind_assoc, pure_bind]
      rfl

namespace BottomUp

variable (h : BottomUp traverse)
include h

theorem traverse_source (f : Fragment) : traverse step (source f) = step (source f) := by
  rw [h.traverse_eq]
  exact takeTurn_nil step (source f)

theorem traverse_join_eq_ok_iff (hjoin : l.join? r = .ok p) :
    traverse step p = .ok result ↔ ∃ l', traverse step l = .ok l' ∧
      ∃ r', traverse step r = .ok r' ∧ takeTurn step p [l', r'] = .ok result := by
  rw [h.traverse_eq, inputs_of_join? hjoin]
  simp only [List.mapM_cons, List.mapM_nil, bind_assoc, pure_bind, bind_eq_ok_iff]

end BottomUp

/-! ## Replacing leaves -/

theorem standIn_join (h : l.join? r = .ok p) : standIn s w p = .ok ⟨p, false⟩ := by
  obtain ⟨shape, hroot, _⟩ := exists_root_of_join? h
  simp only [standIn, hroot]

theorem takeTurn_unchanged (h : l.join? r = .ok p) (hsame : (l'.changed || r'.changed) = false) :
    takeTurn (standIn s w) p [l', r'] = .ok ⟨p, false⟩ := by
  have hany : [l', r'].any (·.changed) = false := by simpa using hsame
  simp [takeTurn, hany, standIn_join h]

theorem takeTurn_changed (h : l.join? r = .ok p) (hchanged : (l'.changed || r'.changed) = true) :
    takeTurn (standIn s w) p [l', r'] = .ok result ↔
      l'.plan.join? r'.plan = .ok result.plan ∧ result.changed = true := by
  have hany : [l', r'].any (·.changed) = true := by simpa using hchanged
  simp only [takeTurn, hany, if_true, List.map_cons, List.map_nil, bind_eq_ok_iff,
    withInputs?_pair_eq_ok_iff h]
  constructor
  · rintro ⟨q, hq, stepped, hstep, hresult⟩
    cases (standIn_join hq).symm.trans hstep
    cases hresult
    exact ⟨hq, rfl⟩
  · rintro ⟨hq, hresult⟩
    refine ⟨result.plan, hq, _, standIn_join hq, ?_⟩
    rw [Bool.true_or, ← hresult]
    rfl

theorem BottomUp.plan_eq (h : BottomUp traverse) (hrun : traverse (standIn s w) p = .ok result)
    (hsame : result.changed = false) : result.plan = p := by
  cases p using Plan.induct with
  | source f =>
    rw [h.traverse_source] at hrun
    simp only [standIn, root, source] at hrun
    split at hrun
    · cases hrun
      cases hsame
    · cases hrun
      rfl
  | join l r p hjoin _ _ =>
    obtain ⟨l', _, r', _, hturn⟩ := (h.traverse_join_eq_ok_iff hjoin).1 hrun
    cases hchanged : l'.changed || r'.changed with
    | false =>
      cases (takeTurn_unchanged hjoin hchanged).symm.trans hturn
      rfl
    | true =>
      have := ((takeTurn_changed hjoin hchanged).1 hturn).2
      cases this.symm.trans hsame

/-- The result is the join of what the sides have become, whether it has been built anew or not. -/
theorem BottomUp.replace_join_eq_ok_iff (h : BottomUp traverse) (hjoin : l.join? r = .ok p) :
    traverse (standIn s w) p = .ok result ↔
      ∃ l', traverse (standIn s w) l = .ok l' ∧ ∃ r', traverse (standIn s w) r = .ok r' ∧
        l'.plan.join? r'.plan = .ok result.plan ∧ result.changed = (l'.changed || r'.changed) := by
  rw [h.traverse_join_eq_ok_iff hjoin]
  refine exists_congr fun l' => and_congr_right fun hl' => ?_
  refine exists_congr fun r' => and_congr_right fun hr' => ?_
  cases hchanged : l'.changed || r'.changed with
  | false =>
    obtain ⟨hl, hr⟩ := Bool.or_eq_false_iff.1 hchanged
    rw [takeTurn_unchanged hjoin hchanged, h.plan_eq hl' hl, h.plan_eq hr' hr, hjoin]
    obtain ⟨q, changed⟩ := result
    simp [eq_comm]
  | true => rw [takeTurn_changed hjoin hchanged]

namespace BottomUp

variable (h : BottomUp traverse)
include h

theorem replace_source (f : Fragment) : traverse (standIn s w) (source f) =
    .ok (if f.source = s then ⟨w, true⟩ else ⟨source f, false⟩) :=
  h.traverse_source f

theorem changed_iff (hrun : traverse (standIn s w) p = .ok result) :
    result.changed = true ↔ ∃ f ∈ p.leaves, f.source = s := by
  induction p using Plan.induct generalizing result with
  | source f =>
    cases (h.replace_source f).symm.trans hrun
    by_cases hf : f.source = s <;> simp [hf]
  | join l r p hjoin hl hr =>
    obtain ⟨l', hl', r', hr', _, hchanged⟩ := (h.replace_join_eq_ok_iff hjoin).1 hrun
    rw [hchanged, Bool.or_eq_true, hl hl', hr hr', leaves_of_join? hjoin]
    simp only [List.mem_append, or_and_right, exists_or]

theorem leaves_eq (hrun : traverse (standIn s w) p = .ok result) :
    result.plan.leaves = p.leaves.flatMap fun f => if f.source = s then w.leaves else [f] := by
  induction p using Plan.induct generalizing result with
  | source f =>
    cases (h.replace_source f).symm.trans hrun
    by_cases hf : f.source = s <;> simp [hf]
  | join l r p hjoin hl hr =>
    obtain ⟨l', hl', r', hr', hresult, _⟩ := (h.replace_join_eq_ok_iff hjoin).1 hrun
    rw [leaves_of_join? hjoin, leaves_of_join? hresult, List.flatMap_append, hl hl', hr hr']

/-- With the same signatures at the leaves, each join can be built again with the same shape. -/
theorem exists_substitute (hsig : ∀ f ∈ p.leaves, f.source = s → w.signature = f.signature) :
    ∃ result, traverse (standIn s w) p = .ok result ∧
      result.plan.tree = PlanTree.substitute s w.tree p.tree := by
  induction p using Plan.induct with
  | source f =>
    refine ⟨_, h.replace_source f, ?_⟩
    by_cases hf : f.source = s <;> simp [source, PlanTree.substitute, hf]
  | join l r p hjoin hl hr =>
    rw [leaves_of_join? hjoin] at hsig
    have hleft : ∀ f ∈ l.leaves, f.source = s → w.signature = f.signature :=
      fun f hf => hsig f (List.mem_append_left _ hf)
    have hright : ∀ f ∈ r.leaves, f.source = s → w.signature = f.signature :=
      fun f hf => hsig f (List.mem_append_right _ hf)
    obtain ⟨l', hl', hltree⟩ := hl hleft
    obtain ⟨r', hr', hrtree⟩ := hr hright
    have hlsig : l'.plan.signature = l.signature := by
      rw [signature, hltree]
      exact PlanTree.signature_substitute hleft
    have hrsig : r'.plan.signature = r.signature := by
      rw [signature, hrtree]
      exact PlanTree.signature_substitute hright
    obtain ⟨q, shape, hq, htree, hqtree⟩ := exists_join?_of_signature_eq hjoin hlsig hrsig
    refine ⟨⟨q, l'.changed || r'.changed⟩, ?_, ?_⟩
    · exact (h.replace_join_eq_ok_iff hjoin).2 ⟨l', hl', r', hr', hq, rfl⟩
    · rw [htree, hqtree, PlanTree.substitute, hltree, hrtree]

end BottomUp

/-- A plan with the signature of the leaves can always stand in for them, and the joins keep what they
store. Any plan that comes out has the leaves that it should have, and joins that fit their sides. -/
theorem replaced_joins_keep_shape (h : BottomUp traverse) (s : String) (w p : Plan) :
    ((∀ f ∈ p.leaves, f.source = s → w.signature = f.signature) →
      ∃ result, traverse (standIn s w) p = .ok result ∧
        result.plan.tree = PlanTree.substitute s w.tree p.tree ∧
        result.plan.signature = p.signature) ∧
    p.withInputs? p.inputs = .ok p ∧
    ∀ result, traverse (standIn s w) p = .ok result →
      (result.changed = true ↔ ∃ f ∈ p.leaves, f.source = s) ∧
      result.plan.leaves = p.leaves.flatMap (fun f => if f.source = s then w.leaves else [f]) ∧
      ∀ l r shape, (l, r, shape) ∈ result.plan.tree.joins →
        JoinShape.of? l.signature r.signature = .ok shape := by
  refine ⟨fun hsig => ?_, withInputs?_inputs p, fun result hrun => ?_⟩
  · obtain ⟨result, hrun, htree⟩ := h.exists_substitute hsig
    refine ⟨result, hrun, htree, ?_⟩
    rw [signature, htree]
    exact PlanTree.signature_substitute hsig
  · exact ⟨h.changed_iff hrun, h.leaves_eq hrun,
      PlanTree.accepted_iff_joins.1 result.plan.accepted⟩

/-- The titles come first and need the number of a book, so the books cannot stand in for what is
evaluated behind them. -/
example :
    let p := (Lookups.titles.join? (source (.hop "prices" ⟨"title"⟩ ⟨"price"⟩))).toOption.get
      (by decide +kernel)
    (transformUp (standIn "prices" Lookups.books) p).isOk = false := by decide +kernel

end Plan

namespace Chain

open Plan

def whole : Plan := (firstTwo.join? third).toOption.get (by decide +kernel)

def otherThird : Plan := source { Fragment.hop "c" ⟨"y"⟩ ⟨"z"⟩ with source := "d" }

/-- Another source of the third hop can stand in for it, and so can the first hop. -/
theorem third_replaced :
    BottomUp transformUp ∧
    (∃ result, transformUp (standIn "c" otherThird) whole = .ok result ∧
      result.plan.signature = whole.signature ∧
      result.plan.leaves.map Fragment.source = ["a", "b", "d"]) ∧
    first.signature ≠ third.signature ∧
    ∃ result, transformUp (standIn "c" first) whole = .ok result ∧ result.changed = true ∧
      result.plan.leaves.map Fragment.source = ["a", "b", "a"] := by
  have hsig : ∀ f ∈ whole.leaves, f.source = "c" → otherThird.signature = f.signature := by
    decide +kernel
  have hfirst : (transformUp (standIn "c" first) whole).isOk = true := by decide +kernel
  obtain ⟨hsame, _, hmade⟩ := replaced_joins_keep_shape bottomUp_transformUp "c" otherThird whole
  obtain ⟨_, _, hmade'⟩ := replaced_joins_keep_shape bottomUp_transformUp "c" first whole
  refine ⟨bottomUp_transformUp, ?_, by decide +kernel, ?_⟩
  · obtain ⟨result, hrun, _, hkept⟩ := hsame hsig
    refine ⟨result, hrun, hkept, ?_⟩
    rw [(hmade result hrun).2.1]
    decide +kernel
  · cases hrun : transformUp (standIn "c" first) whole with
    | error cause =>
      rw [hrun] at hfirst
      cases hfirst
    | ok result =>
      obtain ⟨hchanged, hleaves, _⟩ := hmade' result hrun
      refine ⟨result, rfl, hchanged.2 (by decide +kernel), ?_⟩
      rw [hleaves]
      decide +kernel

end Chain

end FedPlan
