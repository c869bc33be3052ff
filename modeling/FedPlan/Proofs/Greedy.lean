import FedPlan.Greedy
import FedPlan.Proofs.InputOrder

/-!
# Greedy orders

The greedy order never runs into the error of a join, whatever the costs are: the inputs that the plan
made so far still has are bound by none of the plans that are left. It finds a plan if and only if
there is an input order, and the plan merges the given ones.
-/

namespace FedPlan

section Choice

variable {α : Type} {eligible : α → Bool} {noWorse : α → α → Bool} {as rest : List α} {b : α}

theorem takeBest_eq_none_iff :
    takeBest eligible noWorse as = none ↔ ∀ a ∈ as, eligible a = false := by
  induction as with
  | nil => simp [takeBest]
  | cons a as ih =>
    rw [takeBest]
    split
    · next h =>
      rw [ih] at h
      by_cases ha : eligible a = true
      · simp [ha]
      · simpa [ha] using h
    · next b others h =>
      have hsome : ¬∀ x ∈ as, eligible x = false := by
        rw [← ih, h]
        simp
      split <;> simp [hsome]

theorem takeBest_spec (h : takeBest eligible noWorse as = some (b, rest)) :
    eligible b = true ∧ as.Perm (b :: rest) := by
  induction as generalizing rest with
  | nil => cases h
  | cons a as ih =>
    rw [takeBest] at h
    split at h
    · split at h
      · next ha =>
        cases h
        exact ⟨ha, .refl _⟩
      · cases h
    · next c others hrec =>
      split at h
      · next ha =>
        cases h
        exact ⟨(Bool.and_eq_true_iff.1 ha).1, .refl _⟩
      · cases h
        obtain ⟨hc, hperm⟩ := ih hrec
        exact ⟨hc, (hperm.cons a).trans (.swap ..)⟩

end Choice

variable {produced : VarSet} {current : Plan} {done : List Plan} {pending : List Candidate}

/-- What the greedy order relies on while plans are pending: the plan made so far merges those that
are done, and what it still needs is not produced at all. -/
structure Joining (produced : VarSet) (done : List Plan) (current : Plan)
    (pending : List Candidate) : Prop where
  merges : current.Merges done
  produced_eq : produced = producedBy (done ++ pending.map Candidate.plan)
  opened : ∀ v ∈ current.required, v ∉ produced

theorem Joining.step (h : Joining produced done current pending) {next : Candidate}
    {rest : List Candidate} (hready : next.isReady produced current.results = true)
    (hperm : pending.Perm (next :: rest)) :
    ∃ p, current.join? next.plan = .ok p ∧ p.results = current.results ∪ next.plan.results ∧
      Joining produced (done ++ [next.plan]) p rest := by
  have hnext : ∀ v ∈ next.plan.results, v ∈ produced := by
    intro v hv
    rw [h.produced_eq, mem_producedBy]
    exact ⟨next.plan, List.mem_append_right _
      (List.mem_map_of_mem (hperm.symm.subset List.mem_cons_self)), hv⟩
  obtain ⟨p, hp⟩ : ∃ p, current.join? next.plan = .ok p :=
    Plan.exists_join?_iff.2 fun v hreq hres => h.opened v hreq (hnext v hres)
  refine ⟨p, hp, ?_, h.merges.join hp, ?_, ?_⟩
  · apply VarSet.ext
    intro v
    rw [Plan.mem_results_of_join? hp, VarSet.mem_union]
  · rw [h.produced_eq, List.append_assoc]
    exact producedBy_perm ((hperm.map Candidate.plan).append_left done)
  · intro v hv hproduced
    rcases (Plan.mem_required_of_join? hp).1 hv with hreq | ⟨hreq, hnot⟩
    · exact h.opened v hreq hproduced
    · exact hnot (Plan.isReady_iff.1 hready v hreq hproduced)

theorem not_inOrder_of_takeBest {bound : VarSet} {noWorse : Candidate → Candidate → Bool}
    {qs : List Plan} (htake : takeBest (Candidate.isReady produced bound) noWorse pending = none)
    (hne : pending ≠ []) (hqs : qs.Perm (pending.map Candidate.plan)) :
    ¬InOrder produced bound qs := by
  intro horder
  obtain ⟨p, hp, hready⟩ := horder.exists_ready hqs (by simpa using hne)
  obtain ⟨c, hc, rfl⟩ := List.mem_map.1 hp
  have hnot := takeBest_eq_none_iff.1 htake c hc
  rw [Candidate.isReady, hready] at hnot
  cases hnot

/-- The right side of the last join is one of the pending plans. -/
def EndsWith (p : Plan) (ps : List Plan) : Prop := ∃ l : Plan, ∃ q ∈ ps, l.join? q = .ok p

theorem EndsWith.of_subset {p : Plan} {ps qs : List Plan} (h : EndsWith p ps) (hsub : ps ⊆ qs) :
    EndsWith p qs := by
  obtain ⟨l, q, hq, hjoin⟩ := h
  exact ⟨l, q, hsub hq, hjoin⟩

/-- The plan is what the plan made so far becomes when the pending plans are joined to it in an input
order. -/
structure Finishes (produced : VarSet) (done : List Plan) (current : Plan) (pending : List Plan)
    (p : Plan) : Prop where
  merges : p.Merges (done ++ pending)
  unchanged : pending = [] → p = current
  ends : pending ≠ [] → EndsWith p pending
  ordered : ∃ qs, qs.Perm pending ∧ InOrder produced current.results qs

theorem finishes_nil (h : current.Merges done) : Finishes produced done current [] current where
  merges := by simpa using h
  unchanged := fun _ => rfl
  ends := fun hne => absurd rfl hne
  ordered := ⟨[], .refl _, trivial⟩

theorem Finishes.cons {next p final : Plan} {plans rest : List Plan}
    (h : Finishes produced (done ++ [next]) p rest final) (hp : current.join? next = .ok p)
    (hresults : p.results = current.results ∪ next.results)
    (hready : next.isReady produced current.results = true) (hperm : plans.Perm (next :: rest)) :
    Finishes produced done current plans final where
  merges := by
    have hmerges := h.merges
    rw [List.append_assoc] at hmerges
    exact hmerges.of_perm (hperm.symm.append_left done)
  unchanged := by
    intro he
    rw [he] at hperm
    cases hperm.nil_eq
  ends := by
    intro _
    by_cases hrest : rest = []
    · rw [h.unchanged hrest]
      exact ⟨current, next, hperm.symm.subset List.mem_cons_self, hp⟩
    · exact (h.ends hrest).of_subset fun q hq => hperm.symm.subset (List.mem_cons_of_mem _ hq)
  ordered := by
    obtain ⟨qs, hqs, horder⟩ := h.ordered
    exact ⟨next :: qs, (hqs.cons next).trans hperm.symm, hready, hresults ▸ horder⟩

theorem joinRest_nil (steps : Nat) :
    joinRest produced steps current [] = .ok (some current) := by
  cases steps <;> rfl

theorem joinRest_succ {steps : Nat} (hne : pending ≠ []) :
    joinRest produced (steps + 1) current pending =
      match takeBest (Candidate.isReady produced current.results)
        (Candidate.noWorseAfter current) pending with
      | none => .ok none
      | some (next, rest) => current.join? next.plan >>= (joinRest produced steps · rest) := by
  cases pending with
  | nil => exact absurd rfl hne
  | cons c cs => rfl

/-- The joins are not cut off: further steps would change nothing. -/
theorem joinRest_eq_of_length_le {steps : Nat} (hsteps : pending.length ≤ steps) :
    joinRest produced steps current pending =
      joinRest produced pending.length current pending := by
  induction steps generalizing current pending with
  | zero =>
    obtain rfl := List.length_eq_zero_iff.1 (Nat.le_zero.1 hsteps)
    rfl
  | succ steps ih =>
    cases pending with
    | nil => exact joinRest_nil _
    | cons c cs =>
      have hne : c :: cs ≠ [] := List.cons_ne_nil c cs
      rw [List.length_cons, joinRest_succ hne, joinRest_succ hne]
      split
      · rfl
      · next next rest htake =>
        have hlength : rest.length = cs.length := by
          have := (takeBest_spec htake).2.length_eq
          simp only [List.length_cons] at this
          omega
        have hrest : ∀ p, joinRest produced steps p rest = joinRest produced cs.length p rest := by
          intro p
          rw [← hlength]
          apply ih
          simp only [List.length_cons] at hsteps
          omega
        simp only [hrest]

theorem joinRest_cases {steps : Nat} (hsteps : pending.length ≤ steps)
    (h : Joining produced done current pending) :
    (∃ p, joinRest produced steps current pending = .ok (some p) ∧
        Finishes produced done current (pending.map Candidate.plan) p) ∨
      joinRest produced steps current pending = .ok none ∧
        ∀ qs, qs.Perm (pending.map Candidate.plan) → ¬InOrder produced current.results qs := by
  induction steps generalizing done current pending with
  | zero =>
    obtain rfl := List.length_eq_zero_iff.1 (Nat.le_zero.1 hsteps)
    exact .inl ⟨current, joinRest_nil 0, finishes_nil h.merges⟩
  | succ steps ih =>
    by_cases hne : pending = []
    · subst hne
      exact .inl ⟨current, joinRest_nil _, finishes_nil h.merges⟩
    · rw [joinRest_succ hne]
      split
      · next htake => exact .inr ⟨rfl, fun qs hqs => not_inOrder_of_takeBest htake hne hqs⟩
      · next next rest htake =>
        obtain ⟨hready, hperm⟩ := takeBest_spec htake
        obtain ⟨p, hp, hresults, hstep⟩ := h.step hready hperm
        have hplans : (pending.map Candidate.plan).Perm
            (next.plan :: rest.map Candidate.plan) := hperm.map Candidate.plan
        have hlen : rest.length ≤ steps := by
          have := hperm.length_eq
          simp only [List.length_cons] at this
          omega
        rw [hp]
        rcases ih hlen hstep with ⟨final, hfinal, hfinish⟩ | ⟨hnone, hno⟩
        · exact .inl ⟨final, hfinal, hfinish.cons hp hresults hready hplans⟩
        · refine .inr ⟨hnone, ?_⟩
          intro qs hqs horder
          obtain ⟨rs, hrs, hafter⟩ := horder.after_taking hqs hplans
          exact hno rs hrs (hresults ▸ hafter)

theorem greedyOrder_cases (cost : Plan → Cardinality) (ps : List Plan) :
    (∃ p, greedyOrder cost ps = .ok (some p) ∧ hasInputOrder ps = true ∧ p.Merges ps ∧
        (2 ≤ ps.length → EndsWith p ps)) ∨
      greedyOrder cost ps = .ok none ∧ (ps = [] ∨ hasInputOrder ps = false) := by
  have hmap : (ps.map fun p => ({ plan := p, cost := cost p } : Candidate)).map Candidate.plan =
      ps := by simp [Function.comp_def]
  simp only [greedyOrder]
  split
  · next htake =>
    refine .inr ⟨rfl, ?_⟩
    by_cases hne : ps = []
    · exact .inl hne
    · refine .inr (Bool.eq_false_iff.2 ?_)
      intro hord
      obtain ⟨qs, hqs, horder⟩ := hasInputOrder_iff.1 hord
      exact not_inOrder_of_takeBest htake (by simpa using hne) (hmap.symm ▸ hqs) horder
  · next first rest htake =>
    obtain ⟨hready, hperm⟩ := takeBest_spec htake
    have hplans : ps.Perm (first.plan :: rest.map Candidate.plan) := by
      simpa [hmap] using hperm.map Candidate.plan
    have hbound : (∅ : VarSet) ∪ first.plan.results = first.plan.results := by
      apply VarSet.ext
      simp
    have hstart : Joining (producedBy ps) [first.plan] first.plan rest := by
      refine ⟨Plan.merges_singleton _, producedBy_perm hplans, ?_⟩
      intro v hv hproduced
      exact VarSet.not_mem_empty v (Plan.isReady_iff.1 hready v hv hproduced)
    rcases joinRest_cases (Nat.le_refl _) hstart with ⟨p, hp, hfinish⟩ | ⟨hnone, hno⟩
    · refine .inl ⟨p, hp, ?_, hfinish.merges.of_perm hplans.symm, ?_⟩
      · obtain ⟨qs, hqs, horder⟩ := hfinish.ordered
        refine hasInputOrder_iff.2 ⟨first.plan :: qs, (hqs.cons _).trans hplans.symm, hready, ?_⟩
        rw [hbound]
        exact horder
      · intro htwo
        have hne : rest.map Candidate.plan ≠ [] := by
          intro he
          have := hplans.length_eq
          simp only [he, List.length_cons, List.length_nil] at this
          omega
        exact (hfinish.ends hne).of_subset fun q hq =>
          hplans.symm.subset (List.mem_cons_of_mem _ hq)
    · refine .inr ⟨hnone, .inr (Bool.eq_false_iff.2 ?_)⟩
      intro hord
      obtain ⟨qs, hqs, horder⟩ := hasInputOrder_iff.1 hord
      obtain ⟨rs, hrs, hafter⟩ := horder.after_taking hqs hplans
      rw [hbound] at hafter
      exact hno rs hrs hafter

end FedPlan
