import FedPlan.Plan.Basic
import FedPlan.Distinct

/-!
# Merging plans

What a join makes of the signatures of its inputs, and from it what a plan matches, binds, needs and
mentions: the same as its leaves taken together. The shape of the join tree does not matter for any
of these, so a plan merges the plans of a list if and only if it has the leaves of all of them.
-/

namespace FedPlan

theorem Signature.mentions_iff {s : Signature} {v : Variable} :
    s.mentions v = true ↔ v ∈ s.results ∨ v ∈ s.required ∨ v ∈ s.optional := by
  simp [mentions, or_assoc]

namespace JoinShape

theorem of?_ok_signature {l r : Signature} {shape : JoinShape} (h : of? l r = .ok shape) :
    shape.signature = l.join r := by
  rw [of?] at h
  split at h
  · cases h
  · cases h
    rfl

theorem mem_on_of_of? {l r : Signature} {shape : JoinShape} (h : of? l r = .ok shape)
    {v : Variable} : v ∈ shape.on ↔ v ∈ l.results ∧ r.mentions v = true := by
  rw [of?] at h
  split at h
  · cases h
  · cases h
    exact VarSet.mem_filter

theorem exists_of?_ok_iff {l r : Signature} :
    (∃ shape, of? l r = .ok shape) ↔ ∀ v ∈ l.required, v ∉ r.results := by
  rw [of?]
  split
  · next v vs he =>
    have hv : v ∈ l.required ∩ r.results := by
      rw [← VarSet.mem_toList, he]
      exact List.mem_cons_self
    obtain ⟨hl, hr⟩ := VarSet.mem_inter.1 hv
    constructor
    · intro hok
      obtain ⟨shape, h⟩ := hok
      cases h
    · intro h
      exact absurd hr (h v hl)
  · next he =>
    constructor
    · intro _ v hl hr
      have hv : v ∈ (l.required ∩ r.results).toList :=
        VarSet.mem_toList.2 (VarSet.mem_inter.2 ⟨hl, hr⟩)
      rw [he] at hv
      exact List.not_mem_nil hv
    · intro _
      exact ⟨_, rfl⟩

end JoinShape

namespace Plan

variable {l r p : Plan} {v : Variable} {ps : List Plan}

/-! ## One join -/

theorem exists_join?_iff : (∃ p, l.join? r = .ok p) ↔ ∀ v ∈ l.required, v ∉ r.results := by
  rw [← show _ ↔ ∀ v ∈ l.required, v ∉ r.results from JoinShape.exists_of?_ok_iff]
  constructor
  · intro hjoin
    obtain ⟨p, h⟩ := hjoin
    obtain ⟨shape, hshape, _⟩ := join?_eq_ok_iff.1 h
    exact ⟨shape, hshape⟩
  · intro hok
    obtain ⟨shape, hshape⟩ := hok
    exact ⟨⟨.join l.tree r.tree shape, l.accepted, r.accepted, hshape⟩,
      join?_eq_ok_iff.2 ⟨shape, hshape, rfl⟩⟩

theorem exists_root_of_join? (h : l.join? r = .ok p) :
    ∃ shape, p.root = .join l r shape ∧ ∀ v, v ∈ shape.on ↔ v ∈ l.results ∧ r.mentions v = true := by
  obtain ⟨shape, hshape, htree⟩ := join?_eq_ok_iff.1 h
  refine ⟨shape, ?_, fun v => JoinShape.mem_on_of_of? hshape⟩
  obtain ⟨tree, accepted⟩ := p
  cases htree
  rfl

theorem signature_of_join? (h : l.join? r = .ok p) :
    p.signature = l.signature.join r.signature := by
  obtain ⟨shape, hshape, htree⟩ := join?_eq_ok_iff.1 h
  rw [signature, htree]
  exact JoinShape.of?_ok_signature hshape

/-- Sides with the signatures of other sides can be joined as those can, and with the same shape. -/
theorem exists_join?_of_signature_eq {l' r' : Plan} (h : l.join? r = .ok p)
    (hl : l'.signature = l.signature) (hr : r'.signature = r.signature) :
    ∃ q shape, l'.join? r' = .ok q ∧ p.tree = .join l.tree r.tree shape ∧
      q.tree = .join l'.tree r'.tree shape := by
  obtain ⟨shape, hshape, htree⟩ := join?_eq_ok_iff.1 h
  rw [← hl, ← hr] at hshape
  refine ⟨⟨.join l'.tree r'.tree shape, l'.accepted, r'.accepted, hshape⟩, shape, ?_, htree, rfl⟩
  exact join?_eq_ok_iff.2 ⟨shape, hshape, rfl⟩

theorem mem_triples_of_join? (h : l.join? r = .ok p) {t : TriplePattern} :
    t ∈ p.triples ↔ t ∈ l.triples ∨ t ∈ r.triples := by
  rw [triples, signature_of_join? h]
  simp [Signature.join, triples]

theorem mem_results_of_join? (h : l.join? r = .ok p) :
    v ∈ p.results ↔ v ∈ l.results ∨ v ∈ r.results := by
  rw [results, signature_of_join? h]
  simp [Signature.join, results]

theorem mem_required_of_join? (h : l.join? r = .ok p) :
    v ∈ p.required ↔ v ∈ l.required ∨ v ∈ r.required ∧ v ∉ l.results := by
  rw [required, signature_of_join? h]
  simp [Signature.join, required, results]

theorem mem_optional_of_join? (h : l.join? r = .ok p) :
    v ∈ p.optional ↔ (v ∈ l.optional ∨ v ∈ r.optional ∧ v ∉ l.results) ∧ v ∉ p.required := by
  rw [mem_required_of_join? h, optional, signature_of_join? h]
  simp [Signature.join, required, results, optional]

theorem mentions_iff : p.mentions v = true ↔ v ∈ p.results ∨ v ∈ p.required ∨ v ∈ p.optional :=
  Signature.mentions_iff

/-- An input that the join drops is bound by its left side, so it is still mentioned. -/
theorem mentions_of_join? (h : l.join? r = .ok p) :
    p.mentions v = true ↔ l.mentions v = true ∨ r.mentions v = true := by
  rw [mentions_iff, mentions_iff, mentions_iff, mem_results_of_join? h, mem_optional_of_join? h,
    mem_required_of_join? h]
  by_cases hl : v ∈ l.results
  · simp [hl]
  · by_cases hreq : v ∈ l.required ∨ v ∈ r.required
    · rcases hreq with hreq | hreq <;> simp [hl, hreq]
    · have hnl : v ∉ l.required := fun hv => hreq (.inl hv)
      have hnr : v ∉ r.required := fun hv => hreq (.inr hv)
      simp only [hl, hnl, hnr, not_false_eq_true, and_true, or_false, false_or]
      exact or_left_comm

/-! ## Properties of every plan -/

theorem triples_ne_nil (p : Plan) : p.triples ≠ [] := by
  induction p using Plan.induct with
  | source f => exact f.triples_ne_nil
  | join l r p h hl _ =>
    obtain ⟨t, ht⟩ := List.exists_mem_of_ne_nil _ hl
    exact List.ne_nil_of_mem ((mem_triples_of_join? h).2 (.inl ht))

theorem triples_nodup (p : Plan) : p.triples.Nodup := by
  induction p using Plan.induct with
  | source f => exact f.triples_nodup
  | join l r p h _ _ =>
    rw [triples, signature_of_join? h]
    exact nodup_eraseDups _

theorem required_single (p : Plan) : ∀ v ∈ p.required, v ∉ p.optional ∧ v ∉ p.results := by
  induction p using Plan.induct with
  | source f => exact f.required_single
  | join l r p h hl hr =>
    intro v hv
    have hlater := exists_join?_iff.1 ⟨p, h⟩
    refine ⟨fun hopt => ((mem_optional_of_join? h).1 hopt).2 hv, ?_⟩
    rw [mem_results_of_join? h]
    rcases (mem_required_of_join? h).1 hv with hvl | ⟨hvr, hnot⟩
    · intro hres
      rcases hres with hres | hres
      · exact (hl v hvl).2 hres
      · exact hlater v hvl hres
    · intro hres
      rcases hres with hres | hres
      · exact hnot hres
      · exact (hr v hvr).2 hres

theorem leaves_ne_nil (p : Plan) : p.leaves ≠ [] := by
  induction p using Plan.induct with
  | source f => simp
  | join l r p h hl _ => simp [leaves_of_join? h, hl]

/-! ## Direct joins -/

theorem canJoin_iff {p q : Plan} :
    p.canJoin q = true ↔
      (∃ v ∈ p.results, q.mentions v = true) ∨ ∃ v ∈ q.results, p.mentions v = true := by
  simp only [canJoin, Signature.canJoin, Bool.or_eq_true, List.any_eq_true, VarSet.mem_toList]
  rfl

theorem canJoin_comm (p q : Plan) : p.canJoin q = q.canJoin p := by
  rw [Bool.eq_iff_iff, canJoin_iff, canJoin_iff, or_comm]

theorem canJoin_of_join? (h : l.join? r = .ok p) (x : Plan) :
    p.canJoin x = true ↔ l.canJoin x = true ∨ r.canJoin x = true := by
  simp only [canJoin_iff, mem_results_of_join? h, mentions_of_join? h, or_and_right, and_or_left,
    exists_or]
  exact or_or_or_comm

/-! ## Leaves -/

theorem mem_triples_iff {t : TriplePattern} :
    t ∈ p.triples ↔ ∃ f ∈ p.leaves, t ∈ f.signature.triples := by
  induction p using Plan.induct with
  | source f => simp [triples]
  | join l r p h hl hr =>
    simp only [mem_triples_of_join? h, hl, hr, leaves_of_join? h, List.mem_append, or_and_right,
      exists_or]

theorem mem_results_iff : v ∈ p.results ↔ ∃ f ∈ p.leaves, v ∈ f.signature.results := by
  induction p using Plan.induct with
  | source f => simp [results]
  | join l r p h hl hr =>
    simp only [mem_results_of_join? h, hl, hr, leaves_of_join? h, List.mem_append, or_and_right,
      exists_or]

theorem mentions_iff_leaves :
    p.mentions v = true ↔ ∃ f ∈ p.leaves, f.signature.mentions v = true := by
  induction p using Plan.induct with
  | source f => simp [mentions]
  | join l r p h hl hr =>
    simp only [mentions_of_join? h, hl, hr, leaves_of_join? h, List.mem_append, or_and_right,
      exists_or]

theorem canJoin_iff_leaves (x : Plan) :
    p.canJoin x = true ↔ ∃ f ∈ p.leaves, (source f).canJoin x = true := by
  induction p using Plan.induct with
  | source f => simp
  | join l r p h hl hr =>
    simp only [canJoin_of_join? h, hl, hr, leaves_of_join? h, List.mem_append, or_and_right,
      exists_or]

/-- The left side of a join needs nothing that the right side binds, so what is needed but not bound remains. -/
theorem mem_required_iff : v ∈ p.required ↔
    (∃ f ∈ p.leaves, v ∈ f.signature.required) ∧ v ∉ p.results := by
  induction p using Plan.induct with
  | source f =>
    simp only [leaves_source, List.mem_singleton, exists_eq_left]
    exact ⟨fun hv => ⟨hv, (f.required_single v hv).2⟩, And.left⟩
  | join l r p h hl hr =>
    have hlater : v ∈ l.required → v ∉ r.results := exists_join?_iff.1 ⟨p, h⟩ v
    simp only [mem_required_of_join? h, mem_results_of_join? h, leaves_of_join? h, List.mem_append,
      or_and_right, exists_or]
    rw [hl] at hlater ⊢
    rw [hr]
    grind

theorem mem_triples_of_mem_leaves {f : Fragment} {t : TriplePattern} (hf : f ∈ p.leaves)
    (ht : t ∈ f.signature.triples) : t ∈ p.triples :=
  mem_triples_iff.2 ⟨f, hf, ht⟩

/-! ## Many joins -/

/-- The plan joins the plans of a list: each of them once, so that only those inputs are left that
none of them binds. -/
structure Merges (ps : List Plan) (p : Plan) : Prop where
  leaves : p.leaves.Perm (ps.flatMap Plan.leaves)
  triples : ∀ t, t ∈ p.triples ↔ ∃ q ∈ ps, t ∈ q.triples
  results : ∀ v, v ∈ p.results ↔ ∃ q ∈ ps, v ∈ q.results
  required : ∀ v, v ∈ p.required ↔ (∃ q ∈ ps, v ∈ q.required) ∧ ∀ q ∈ ps, v ∉ q.results
  mentions : ∀ v, p.mentions v = true ↔ ∃ q ∈ ps, q.mentions v = true

theorem exists_leaf_iff (h : p.leaves.Perm (ps.flatMap Plan.leaves)) {F : Fragment → Prop} :
    (∃ f ∈ p.leaves, F f) ↔ ∃ q ∈ ps, ∃ f ∈ q.leaves, F f := by
  simp only [h.mem_iff, List.mem_flatMap]
  constructor
  · intro hex
    obtain ⟨f, ⟨q, hq, hf⟩, hF⟩ := hex
    exact ⟨q, hq, f, hf, hF⟩
  · intro hex
    obtain ⟨q, hq, f, hf, hF⟩ := hex
    exact ⟨f, ⟨q, hq, hf⟩, hF⟩

/-- The leaves alone say whether a plan merges the plans of a list. -/
theorem merges_iff_leaves_perm : p.Merges ps ↔ p.leaves.Perm (ps.flatMap Plan.leaves) := by
  refine ⟨Merges.leaves, fun h => ?_⟩
  have hresults : ∀ v, v ∈ p.results ↔ ∃ q ∈ ps, v ∈ q.results := by
    intro v
    simp only [mem_results_iff, exists_leaf_iff h]
  refine ⟨h, ?_, hresults, ?_, ?_⟩
  · intro t
    simp only [mem_triples_iff, exists_leaf_iff h]
  · intro v
    rw [mem_required_iff, exists_leaf_iff h, hresults]
    simp only [not_exists, not_and]
    refine and_congr_left fun hnot => ?_
    constructor
    · intro hex
      obtain ⟨q, hq, hf⟩ := hex
      exact ⟨q, hq, mem_required_iff.2 ⟨hf, hnot q hq⟩⟩
    · intro hex
      obtain ⟨q, hq, hreq⟩ := hex
      exact ⟨q, hq, (mem_required_iff.1 hreq).1⟩
  · intro v
    simp only [mentions_iff_leaves, exists_leaf_iff h]

theorem merges_singleton (p : Plan) : Merges [p] p := merges_iff_leaves_perm.2 (by simp)

theorem Merges.join (hl : Merges ps l) (h : l.join? r = .ok p) : Merges (ps ++ [r]) p := by
  rw [merges_iff_leaves_perm, leaves_of_join? h, List.flatMap_append, List.flatMap_singleton]
  exact hl.leaves.append_right r.leaves

theorem Merges.of_perm {qs : List Plan} (h : Merges ps p) (hperm : ps.Perm qs) :
    Merges qs p :=
  merges_iff_leaves_perm.2 (h.leaves.trans (hperm.flatMap_right _))

theorem Merges.canJoin_iff (h : Merges ps p) (x : Plan) :
    p.canJoin x = true ↔ ∃ q ∈ ps, q.canJoin x = true := by
  rw [canJoin_iff_leaves, exists_leaf_iff h.leaves]
  refine exists_congr fun q => and_congr_right fun _ => ?_
  exact (canJoin_iff_leaves x).symm

end Plan

end FedPlan
