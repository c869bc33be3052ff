import FedPlan.Inputs
import FedPlan.Proofs.Plan.Merging

/-!
# Input orders

The check for an input order takes any plan that is ready. It decides whether some arrangement of the
plans is an order, because a ready plan can be moved to the front of every order. From this follows
that a plan can be replaced by the plans it merges.
-/

namespace FedPlan

variable {produced bound : VarSet} {ps qs rest : List Plan} {p q : Plan} {v : Variable}

theorem exists_split_of_perm_cons {α : Type} {x : α} {xs ys : List α} (h : ys.Perm (x :: xs)) :
    ∃ before after, ys = before ++ x :: after ∧ (before ++ after).Perm xs := by
  obtain ⟨before, after, rfl⟩ := List.append_of_mem (h.symm.subset List.mem_cons_self)
  exact ⟨before, after, rfl, (List.perm_middle.symm.trans h).cons_inv⟩

theorem mem_producedBy : v ∈ producedBy ps ↔ ∃ p ∈ ps, v ∈ p.results := by
  have hfold : ∀ vs : VarSet, v ∈ ps.foldl (fun vs p => vs ∪ p.results) vs ↔
      v ∈ vs ∨ ∃ p ∈ ps, v ∈ p.results := by
    induction ps with
    | nil => simp
    | cons p ps ih =>
      intro vs
      rw [List.foldl_cons, ih, VarSet.mem_union]
      simp [or_assoc]
  simpa [producedBy] using hfold ∅

theorem producedBy_append (ps qs : List Plan) :
    producedBy (ps ++ qs) = producedBy ps ∪ producedBy qs := by
  apply VarSet.ext
  intro v
  rw [VarSet.mem_union, mem_producedBy, mem_producedBy, mem_producedBy]
  simp [or_and_right, exists_or]

theorem producedBy_perm (h : ps.Perm qs) : producedBy ps = producedBy qs := by
  apply VarSet.ext
  intro v
  simp [mem_producedBy, h.mem_iff]

theorem union_producedBy_cons (bound : VarSet) (p : Plan) (ps : List Plan) :
    bound ∪ producedBy (p :: ps) = bound ∪ p.results ∪ producedBy ps := by
  apply VarSet.ext
  simp [mem_producedBy, or_assoc]

theorem Plan.isReady_iff :
    p.isReady produced bound = true ↔ ∀ v ∈ p.required, v ∈ produced → v ∈ bound := by
  simp only [isReady, List.all_eq_true, VarSet.mem_toList, Bool.or_eq_true, decide_eq_true_eq]
  refine forall_congr' fun v => forall_congr' fun _ => ?_
  by_cases hv : v ∈ produced <;> simp [hv]

/-- Each plan of the list is ready once the plans before it have been evaluated. -/
def InOrder (produced : VarSet) : VarSet → List Plan → Prop
  | _, [] => True
  | bound, p :: ps => p.isReady produced bound = true ∧ InOrder produced (bound ∪ p.results) ps

namespace InOrder

theorem weaken {produced' bound' : VarSet} (h : InOrder produced bound ps)
    (hbound : ∀ v ∈ bound, v ∈ bound')
    (hproduced : ∀ p ∈ ps, ∀ v ∈ p.required, v ∈ produced' → v ∈ produced ∨ v ∈ bound') :
    InOrder produced' bound' ps := by
  induction ps generalizing bound bound' with
  | nil => trivial
  | cons p ps ih =>
    obtain ⟨hready, hrest⟩ := h
    constructor
    · rw [Plan.isReady_iff] at hready ⊢
      intro v hv hv'
      rcases hproduced p List.mem_cons_self v hv hv' with hp | hb
      · exact hbound v (hready v hv hp)
      · exact hb
    · apply ih hrest
      · simp only [VarSet.mem_union]
        exact fun v hv => hv.imp_left (hbound v)
      · intro q hq v hv hv'
        rcases hproduced q (List.mem_cons_of_mem p hq) v hv hv' with hp | hb
        · exact .inl hp
        · exact .inr (VarSet.mem_union.2 (.inl hb))

theorem append_iff : InOrder produced bound (ps ++ qs) ↔
    InOrder produced bound ps ∧ InOrder produced (bound ∪ producedBy ps) qs := by
  induction ps generalizing bound with
  | nil =>
    have hempty : bound ∪ producedBy [] = bound := by
      apply VarSet.ext
      simp [mem_producedBy]
    simp [InOrder, hempty]
  | cons p ps ih =>
    rw [List.cons_append, InOrder, InOrder, ih, union_producedBy_cons, and_assoc]

/-- A plan can be taken out of an order if what it binds is bound already. -/
theorem take_out (h : InOrder produced bound (ps ++ q :: qs)) :
    InOrder produced (bound ∪ q.results) (ps ++ qs) := by
  obtain ⟨hps, hq⟩ := append_iff.1 h
  have hmono : ∀ v ∈ bound, v ∈ bound ∪ q.results := fun v hv => VarSet.mem_union.2 (.inl hv)
  refine append_iff.2 ⟨hps.weaken hmono fun _ _ _ _ => .inl, hq.2.weaken ?_ fun _ _ _ _ => .inl⟩
  simp only [VarSet.mem_union]
  intro v hv
  rcases hv with (hv | hv) | hv
  · exact .inl (.inl hv)
  · exact .inr hv
  · exact .inl (.inr hv)

theorem drop_again (h : InOrder produced bound (ps ++ q :: qs)) (hq : q ∈ ps) :
    InOrder produced bound (ps ++ qs) := by
  obtain ⟨hps, hrest⟩ := append_iff.1 h
  refine append_iff.2 ⟨hps, hrest.2.weaken ?_ fun _ _ _ _ => .inl⟩
  intro v hv
  rcases VarSet.mem_union.1 hv with hv | hv
  · exact hv
  · exact VarSet.mem_union.2 (.inr (mem_producedBy.2 ⟨q, hq, hv⟩))

theorem exists_ready (h : InOrder produced bound qs) (hperm : qs.Perm ps) (hne : ps ≠ []) :
    ∃ p ∈ ps, p.isReady produced bound = true := by
  cases qs with
  | nil => exact absurd hperm.symm.eq_nil hne
  | cons q qs => exact ⟨q, hperm.subset List.mem_cons_self, h.1⟩

/-- Whichever plan is taken first, there is an order of the others if there is one of all. -/
theorem after_taking (h : InOrder produced bound qs) (hperm : qs.Perm ps)
    (htake : ps.Perm (q :: rest)) :
    ∃ rs, rs.Perm rest ∧ InOrder produced (bound ∪ q.results) rs := by
  obtain ⟨before, after, rfl, hrest⟩ := exists_split_of_perm_cons (hperm.trans htake)
  exact ⟨before ++ after, hrest, h.take_out⟩

end InOrder

/-! ## The check -/

theorem takeReady_eq_none_iff :
    takeReady produced bound ps = none ↔ ∀ p ∈ ps, p.isReady produced bound = false := by
  induction ps with
  | nil => simp [takeReady]
  | cons p ps ih =>
    rw [takeReady]
    split
    · next h => simp [h]
    · next h => simp [ih, h]

theorem lastFirst_perm {α : Type} (as : List α) : (lastFirst as).Perm as := by
  cases as with
  | nil => exact .refl _
  | cons a as =>
    have hlast := List.dropLast_concat_getLast (List.cons_ne_nil a as)
    exact (List.perm_append_singleton _ _).symm.trans (.of_eq hlast)

theorem takeReady_spec (h : takeReady produced bound ps = some (q, rest)) :
    q.isReady produced bound = true ∧ ps.Perm (q :: rest) := by
  induction ps generalizing rest with
  | nil => cases h
  | cons p ps ih =>
    rw [takeReady] at h
    split at h
    · next hp =>
      cases h
      exact ⟨hp, (lastFirst_perm _).symm.cons _⟩
    · obtain ⟨⟨q', rest'⟩, htake, he⟩ := Option.map_eq_some_iff.1 h
      cases he
      obtain ⟨hready, hperm⟩ := ih htake
      exact ⟨hready, (hperm.cons p).trans (.swap ..)⟩

theorem hasOrderFrom_iff {steps : Nat} (hsteps : ps.length ≤ steps) :
    hasOrderFrom produced steps bound ps = true ↔
      ∃ qs, qs.Perm ps ∧ InOrder produced bound qs := by
  induction steps generalizing bound ps with
  | zero =>
    obtain rfl := List.length_eq_zero_iff.1 (Nat.le_zero.1 hsteps)
    simp only [hasOrderFrom, true_iff]
    exact ⟨[], .refl _, trivial⟩
  | succ steps ih =>
    cases ps with
    | nil =>
      simp only [hasOrderFrom, true_iff]
      exact ⟨[], .refl _, trivial⟩
    | cons p ps =>
      rw [hasOrderFrom]
      split
      · next q rest htake =>
        obtain ⟨hready, hperm⟩ := takeReady_spec htake
        have hlen : rest.length ≤ steps := by
          have := hperm.length_eq
          simp only [List.length_cons] at this hsteps
          omega
        rw [ih hlen]
        constructor
        · intro h
          obtain ⟨rs, hrs, horder⟩ := h
          exact ⟨q :: rs, (hrs.cons q).trans hperm.symm, hready, horder⟩
        · intro h
          obtain ⟨qs, hqs, horder⟩ := h
          exact horder.after_taking hqs hperm
      · next htake =>
        simp only [Bool.false_eq_true, false_iff]
        intro h
        obtain ⟨qs, hqs, horder⟩ := h
        obtain ⟨x, hx, hready⟩ := horder.exists_ready hqs (by simp)
        rw [takeReady_eq_none_iff.1 htake x hx] at hready
        cases hready

/-- The check is not cut off: further steps would change nothing. -/
theorem hasOrderFrom_eq_of_length_le {steps : Nat} (hsteps : ps.length ≤ steps) :
    hasOrderFrom produced steps bound ps = hasOrderFrom produced ps.length bound ps := by
  rw [Bool.eq_iff_iff, hasOrderFrom_iff hsteps, hasOrderFrom_iff (Nat.le_refl _)]

theorem hasInputOrder_iff :
    hasInputOrder ps = true ↔ ∃ qs, qs.Perm ps ∧ InOrder (producedBy ps) ∅ qs :=
  hasOrderFrom_iff (Nat.le_refl _)

theorem hasInputOrder_perm (h : ps.Perm qs) : hasInputOrder ps = hasInputOrder qs := by
  rw [Bool.eq_iff_iff, hasInputOrder_iff, hasInputOrder_iff, producedBy_perm h]
  exact exists_congr fun rs => and_congr_left' ⟨(·.trans h), (·.trans h.symm)⟩

/-! ## Orders by position -/

theorem mem_producedBy_take {n : Nat} :
    v ∈ producedBy (ps.take n) ↔ ∃ i < n, ∃ q, ps[i]? = some q ∧ v ∈ q.results := by
  simp only [mem_producedBy, List.mem_iff_getElem?, List.getElem?_take, Option.ite_none_right_eq_some]
  constructor
  · rintro ⟨q, ⟨i, hi, hq⟩, hv⟩
    exact ⟨i, hi, q, hq, hv⟩
  · rintro ⟨i, hi, q, hq, hv⟩
    exact ⟨q, ⟨i, hi, hq⟩, hv⟩

theorem inOrder_iff_getElem? : InOrder produced bound ps ↔
    ∀ (i : Nat) (p : Plan), ps[i]? = some p →
      p.isReady produced (bound ∪ producedBy (ps.take i)) = true := by
  induction ps generalizing bound with
  | nil => simp [InOrder]
  | cons p ps ih =>
    have hnone : bound ∪ producedBy [] = bound := by
      apply VarSet.ext
      simp [mem_producedBy]
    rw [InOrder, ih]
    constructor
    · rintro ⟨hready, hrest⟩ i q hq
      cases i with
      | zero =>
        cases hq
        rwa [List.take_zero, hnone]
      | succ i =>
        rw [List.take_succ_cons, union_producedBy_cons]
        exact hrest i q hq
    · intro h
      constructor
      · simpa [hnone] using h 0 p rfl
      · intro i q hq
        have hready := h (i + 1) q hq
        rwa [List.take_succ_cons, union_producedBy_cons] at hready

/-- Whatever a plan of the list needs and some plan of the list binds, a plan in front of it binds. -/
def BoundInFront (ps : List Plan) : Prop :=
  ∀ (i : Nat) (p : Plan), ps[i]? = some p → ∀ v ∈ p.required, (∃ q ∈ ps, v ∈ q.results) →
    ∃ j < i, ∃ q : Plan, ps[j]? = some q ∧ v ∈ q.results

theorem inOrder_iff_boundInFront : InOrder (producedBy ps) ∅ ps ↔ BoundInFront ps := by
  simp only [inOrder_iff_getElem?, Plan.isReady_iff, VarSet.mem_union, VarSet.not_mem_empty,
    false_or, mem_producedBy_take]
  simp only [mem_producedBy, BoundInFront]

/-- The check decides whether the plans can be arranged such that each of them finds its inputs bound. -/
theorem hasInputOrder_decides (ps : List Plan) :
    (hasInputOrder ps = true ↔ ∃ qs, qs.Perm ps ∧ BoundInFront qs) ∧
      ∀ qs, qs.Perm ps → hasInputOrder qs = hasInputOrder ps := by
  refine ⟨?_, fun qs hqs => hasInputOrder_perm hqs⟩
  rw [hasInputOrder_iff]
  apply exists_congr
  intro qs
  apply and_congr_right
  intro hqs
  rw [← producedBy_perm hqs, inOrder_iff_boundInFront]

/-! ## Lists with one plan, and with a plan once more -/

theorem hasInputOrder_singleton (p : Plan) : hasInputOrder [p] = true := by
  refine hasInputOrder_iff.2 ⟨[p], .refl _, Plan.isReady_iff.2 ?_, trivial⟩
  intro v hreq hres
  obtain ⟨q, hq, hv⟩ := mem_producedBy.1 hres
  rw [List.mem_singleton.1 hq] at hv
  exact absurd hv (p.required_single v hreq).2

theorem hasInputOrder_concat_of_mem (hp : p ∈ ps) :
    hasInputOrder (ps ++ [p]) = hasInputOrder ps := by
  have hall : producedBy (ps ++ [p]) = producedBy ps := by
    apply VarSet.ext
    intro v
    rw [producedBy_append, VarSet.mem_union, or_iff_left_iff_imp]
    intro hv
    obtain ⟨q, hq, hres⟩ := mem_producedBy.1 hv
    rw [List.mem_singleton.1 hq] at hres
    exact mem_producedBy.2 ⟨p, hp, hres⟩
  rw [Bool.eq_iff_iff, hasInputOrder_iff, hasInputOrder_iff, hall]
  constructor
  · intro h
    obtain ⟨qs, hqs, horder⟩ := h
    obtain ⟨before, after, rfl, hrest⟩ :=
      exists_split_of_perm_cons (hqs.trans (List.perm_append_singleton p ps))
    rcases List.mem_append.1 (hrest.symm.subset hp) with hbefore | hafter
    · exact ⟨before ++ after, hrest, horder.drop_again hbefore⟩
    · obtain ⟨mid, last, rfl⟩ := List.append_of_mem hafter
      refine ⟨(before ++ p :: mid) ++ last, ?_, ?_⟩
      · refine List.Perm.trans ?_ hrest
        rw [List.append_assoc, List.cons_append]
        exact List.perm_middle.symm.append_left before
      · rw [← List.cons_append, ← List.append_assoc] at horder
        exact horder.drop_again (by simp)
  · intro h
    obtain ⟨qs, hqs, horder⟩ := h
    refine ⟨qs ++ [p], hqs.append_right [p], InOrder.append_iff.2 ⟨horder, ?_, trivial⟩⟩
    rw [Plan.isReady_iff]
    intro v _ hv
    rw [producedBy_perm hqs]
    exact VarSet.mem_union.2 (.inr hv)

/-! ## Expanding a merged plan -/

theorem Plan.Merges.producedBy_eq (h : p.Merges ps) : producedBy ps = p.results := by
  apply VarSet.ext
  intro v
  rw [mem_producedBy, h.results]

/-- An order with a merged plan can be expanded by an order of the plans that it merges. -/
theorem hasInputOrder_expand (h : p.Merges ps) (hps : hasInputOrder ps = true)
    (hrest : hasInputOrder (rest ++ [p]) = true) : hasInputOrder (rest ++ ps) = true := by
  obtain ⟨qs, hqs, hin⟩ := hasInputOrder_iff.1 hps
  obtain ⟨rs, hrs, hout⟩ := hasInputOrder_iff.1 hrest
  obtain ⟨before, after, rfl, hmid⟩ :=
    exists_split_of_perm_cons (hrs.trans (List.perm_append_singleton p rest))
  have hall : producedBy (rest ++ [p]) = producedBy (rest ++ ps) := by
    rw [producedBy_append, producedBy_append, h.producedBy_eq,
      (Plan.merges_singleton p).producedBy_eq]
  have hqs' : producedBy qs = p.results := by rw [producedBy_perm hqs, h.producedBy_eq]
  rw [hall] at hout
  obtain ⟨hbefore, hready, hafter⟩ := InOrder.append_iff.1 hout
  refine hasInputOrder_iff.2 ⟨before ++ (qs ++ after), ?_, ?_⟩
  · calc before ++ (qs ++ after)
      _ |>.Perm (qs ++ (before ++ after)) := by
        rw [← List.append_assoc, ← List.append_assoc]
        exact List.perm_append_comm.append_right after
      _ |>.Perm (ps ++ rest) := hqs.append hmid
      _ |>.Perm (rest ++ ps) := List.perm_append_comm
  · refine InOrder.append_iff.2 ⟨hbefore, InOrder.append_iff.2 ⟨?_, ?_⟩⟩
    · apply hin.weaken
      · exact fun v hv => absurd hv (VarSet.not_mem_empty v)
      · intro q hq v hv hproduced
        by_cases hv' : v ∈ producedBy ps
        · exact .inl hv'
        · refine .inr (Plan.isReady_iff.1 hready v ?_ hproduced)
          refine (h.required v).2 ⟨⟨q, hqs.subset hq, hv⟩, ?_⟩
          exact fun x hx hres => hv' (mem_producedBy.2 ⟨x, hx, hres⟩)
    · rw [hqs']
      exact hafter

end FedPlan
