import FedPlan.Component.Matching
import FedPlan.Proofs.Graph.Growth

/-!
# Coverage

The sets of positions that the search compares stand for sets of triple patterns: a node covers the
positions of its patterns if they all occur in the query, and no position otherwise.
-/

namespace FedPlan

namespace Query

variable {q : Query} {p : Plan} {t : TriplePattern} {n : Nat} {c : WordSet}

theorem position?_eq_some_iff : q.position? t = some n ↔ q.triples[n]? = some t :=
  idxOf?_eq_some_iff_getElem? q.nodup

private theorem exists_positions_iff {ts : List TriplePattern} :
    (∃ ns, ts.mapM q.position? = some ns) ↔ ∀ t ∈ ts, t ∈ q.triples := by
  induction ts with
  | nil => simp
  | cons t ts ih =>
    rw [List.forall_mem_cons, ← ih, ← List.isSome_idxOf? (l := q.triples)]
    change _ ↔ (q.position? t).isSome = true ∧ _
    rw [List.mapM_cons]
    rcases q.position? t with _ | n
    · simp
    · rcases ts.mapM q.position? with _ | ns
      · simp
      · simp

private theorem mem_positions {ts : List TriplePattern} {ns : List Nat}
    (h : ts.mapM q.position? = some ns) : n ∈ ns ↔ ∃ t ∈ ts, q.triples[n]? = some t := by
  induction ts generalizing ns with
  | nil =>
    cases h
    simp
  | cons t ts ih =>
    rw [List.mapM_cons] at h
    rcases hm : q.position? t with _ | m
    · rw [hm] at h
      cases h
    · rcases hms : ts.mapM q.position? with _ | ms
      · rw [hm, hms] at h
        cases h
      · rw [hm, hms] at h
        cases h
        have hhead : n = m ↔ q.triples[n]? = some t := by
          rw [← position?_eq_some_iff, hm, Option.some_inj, eq_comm]
        simp [hhead, ih hms]

theorem exists_coverage?_iff :
    (∃ c, q.coverage? p = some c) ↔ ∀ t ∈ p.triples, t ∈ q.triples := by
  rw [← exists_positions_iff, coverage?]
  rcases p.triples.mapM q.position? with _ | ns
  · simp
  · simp

theorem mem_coverage? (h : q.coverage? p = some c) :
    n ∈ c ↔ ∃ t ∈ p.triples, q.triples[n]? = some t := by
  obtain ⟨ns, hns, rfl⟩ := Option.map_eq_some_iff.1 h
  rw [WordSet.mem_ofList, mem_positions hns]

end Query

namespace Matching

variable {m : Matching} {i n : Nat} {c members : WordSet} {t : TriplePattern}

/-- The patterns of the node all belong to the query. -/
structure Usable (m : Matching) (i : Nat) : Prop where
  lt_size : i < m.graph.size
  in_query : ∀ t, m.graph.Matches i t → t ∈ m.query.triples

theorem coverageAt?_eq_some_iff : m.coverageAt? i = some c ↔
    ∃ p, m.graph.node? i = some p ∧ m.query.coverage? p = some c := by
  rw [coverageAt?, m.coverage_eq, List.getElem?_map, Option.join_eq_some_iff,
    Option.map_eq_some_iff]
  rfl

theorem usable_iff : m.Usable i ↔ ∃ c, m.coverageAt? i = some c := by
  simp only [coverageAt?_eq_some_iff]
  constructor
  · intro h
    obtain ⟨p, hp⟩ := JoinGraph.exists_node h.lt_size
    obtain ⟨c, hc⟩ := Query.exists_coverage?_iff.2 fun t ht => h.in_query t ⟨p, hp, ht⟩
    exact ⟨c, p, hp, hc⟩
  · intro h
    obtain ⟨c, p, hp, hc⟩ := h
    refine ⟨JoinGraph.lt_size_of_node? hp, ?_⟩
    intro t ht
    obtain ⟨p', hp', ht⟩ := ht
    cases hp.symm.trans hp'
    exact Query.exists_coverage?_iff.1 ⟨c, hc⟩ t ht

theorem mem_coverageAt? (h : m.coverageAt? i = some c) :
    n ∈ c ↔ ∃ t, m.graph.Matches i t ∧ m.query.triples[n]? = some t := by
  obtain ⟨p, hp, hc⟩ := coverageAt?_eq_some_iff.1 h
  rw [Query.mem_coverage? hc]
  constructor
  · intro h
    obtain ⟨t, ht, hn⟩ := h
    exact ⟨t, ⟨p, hp, ht⟩, hn⟩
  · intro h
    obtain ⟨t, ⟨p', hp', ht⟩, hn⟩ := h
    cases hp.symm.trans hp'
    exact ⟨t, ht, hn⟩

theorem mem_seeds {s : WordSet} : s ∈ m.seeds ↔ ∃ i, m.Usable i ∧ s = .singleton i := by
  simp only [seeds, List.mem_map, List.mem_filter, List.mem_range, Option.isSome_iff_exists,
    ← usable_iff]
  constructor
  · intro h
    obtain ⟨i, ⟨_, hi⟩, rfl⟩ := h
    exact ⟨i, hi, rfl⟩
  · intro h
    obtain ⟨i, hi, rfl⟩ := h
    exact ⟨i, ⟨hi.lt_size, hi⟩, rfl⟩

/-! ## Covered positions -/

theorem mem_covered_iff :
    n ∈ m.covered members ↔ ∃ i ∈ members, ∃ c, m.coverageAt? i = some c ∧ n ∈ c := by
  simp only [covered, WordSet.mem_foldl_union, WordSet.mem_toList]
  refine (or_iff_right (WordSet.not_mem_empty n)).trans ?_
  refine exists_congr fun i => and_congr_right' ?_
  cases m.coverageAt? i <;> simp

theorem mem_covered (h : ∀ i ∈ members, m.Usable i) :
    n ∈ m.covered members ↔
      ∃ i ∈ members, ∃ t, m.graph.Matches i t ∧ m.query.triples[n]? = some t := by
  rw [mem_covered_iff]
  constructor
  · intro hn
    obtain ⟨i, hi, c, hc, hn⟩ := hn
    exact ⟨i, hi, (mem_coverageAt? hc).1 hn⟩
  · intro hn
    obtain ⟨i, hi, hn⟩ := hn
    obtain ⟨c, hc⟩ := usable_iff.1 (h i hi)
    exact ⟨i, hi, c, hc, (mem_coverageAt? hc).2 hn⟩

theorem covered_eq_range_iff (h : ∀ i ∈ members, m.Usable i) :
    m.covered members = .range m.query.size ↔
      ∀ t ∈ m.query.triples, ∃ i ∈ members, m.graph.Matches i t := by
  constructor
  · intro heq t ht
    obtain ⟨n, hn⟩ := List.mem_iff_getElem?.1 ht
    have hlt : n ∈ m.covered members := by
      rw [heq, WordSet.mem_range]
      exact (List.getElem?_eq_some_iff.1 hn).1
    obtain ⟨i, hi, t', ht', hn'⟩ := (mem_covered h).1 hlt
    cases hn.symm.trans hn'
    exact ⟨i, hi, ht'⟩
  · intro hall
    apply WordSet.ext
    intro n
    rw [mem_covered h, WordSet.mem_range]
    constructor
    · intro hn
      obtain ⟨_, _, _, _, hn⟩ := hn
      exact (List.getElem?_eq_some_iff.1 hn).1
    · intro hn
      obtain ⟨i, hi, ht⟩ := hall _ (List.getElem_mem hn)
      exact ⟨i, hi, _, ht, List.getElem?_eq_getElem hn⟩

/-- A usable node fits if it shares no pattern with a member. -/
theorem fits_covered (h : ∀ i ∈ members, m.Usable i) :
    m.fits (m.covered members) i = true ↔
      m.Usable i ∧ ∀ j ∈ members, ∀ t, m.graph.Matches i t → ¬m.graph.Matches j t := by
  rw [usable_iff, fits]
  split
  · next c hc =>
    rw [WordSet.isDisjoint_iff]
    simp only [mem_coverageAt? hc, mem_covered h, hc, Option.some_inj, exists_eq', true_and]
    constructor
    · intro hdisj j hj t hi ht
      have husable := usable_iff.2 ⟨c, hc⟩
      obtain ⟨n, hn⟩ := List.mem_iff_getElem?.1 (husable.in_query t hi)
      exact hdisj n ⟨t, hi, hn⟩ ⟨j, hj, t, ht, hn⟩
    · intro hnone n hi hcov
      obtain ⟨t, ht, hn⟩ := hi
      obtain ⟨j, hj, t', ht', hn'⟩ := hcov
      cases hn.symm.trans hn'
      exact hnone j hj t ht ht'
  · next hc => simp [hc]

end Matching

end FedPlan
