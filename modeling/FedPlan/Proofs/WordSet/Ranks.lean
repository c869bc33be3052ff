import FedPlan.Proofs.WordSet.Counting

/-!
# Ranks

The rank of a member tells how many members are smaller, so the members of a set are numbered from
zero without a gap. A subset is given by the ranks of its members, and each set of numbers below the
size gives one subset.
-/

namespace FedPlan

theorem countP_lt_of_getElem? {ns : List Nat} (h : ns.Pairwise (· < ·)) {k n : Nat}
    (hn : ns[k]? = some n) : ns.countP (· < n) = k := by
  induction ns generalizing k with
  | nil => simp at hn
  | cons m ns ih =>
    obtain ⟨hm, hns⟩ := List.pairwise_cons.1 h
    rw [List.countP_cons]
    cases k with
    | zero =>
      have hmn : m = n := by simpa using hn
      have hzero : ns.countP (· < n) = 0 := by
        apply List.countP_eq_zero.2
        intro l hl
        have hlt := hm l hl
        simp only [decide_eq_true_eq]
        omega
      simp [hzero, hmn]
    | succ k =>
      have hat : ns[k]? = some n := by simpa using hn
      have hlt : m < n := hm n (List.mem_of_getElem? hat)
      simp [ih hns hat, hlt]

namespace WordSet

variable {s u : WordSet} {i j k : Nat}

/-- The number of members that are smaller. -/
def rank (s : WordSet) (i : Nat) : Nat := s.toList.countP (· < i)

/-- The ranks of the members of a subset. -/
def renumber (s u : WordSet) : WordSet := .ofList (u.toList.map s.rank)

@[simp] theorem mem_renumber : k ∈ s.renumber u ↔ ∃ i ∈ u, s.rank i = k := by simp [renumber]

theorem getElem?_toList_rank (hi : i ∈ s) : s.toList[s.rank i]? = some i := by
  obtain ⟨k, hk⟩ := List.mem_iff_getElem?.1 (mem_toList.2 hi)
  rwa [rank, countP_lt_of_getElem? s.sorted_toList hk]

theorem rank_inj (hi : i ∈ s) (hj : j ∈ s) : s.rank i = s.rank j ↔ i = j := by
  constructor
  · intro h
    have hat := getElem?_toList_rank hi
    rw [h, getElem?_toList_rank hj] at hat
    exact (Option.some.inj hat).symm
  · exact congrArg s.rank

theorem exists_rank (hk : k < s.size) : ∃ i ∈ s, s.rank i = k := by
  rw [size_eq_length] at hk
  have hat : s.toList[k]? = some s.toList[k] := List.getElem?_eq_getElem hk
  exact ⟨s.toList[k], mem_toList.1 (List.getElem_mem hk),
    countP_lt_of_getElem? s.sorted_toList hat⟩

theorem rank_mem_renumber (hu : ∀ i ∈ u, i ∈ s) (hi : i ∈ s) : s.rank i ∈ s.renumber u ↔ i ∈ u := by
  rw [mem_renumber]
  constructor
  · rintro ⟨j, hj, hrank⟩
    rwa [← (rank_inj (hu j hj) hi).1 hrank]
  · intro hmem
    exact ⟨i, hmem, rfl⟩

theorem renumber_inj {v : WordSet} (hu : ∀ i ∈ u, i ∈ s) (hv : ∀ i ∈ v, i ∈ s)
    (h : s.renumber u = s.renumber v) : u = v := by
  apply ext
  intro i
  constructor
  · intro hi
    rwa [← rank_mem_renumber hv (hu i hi), ← h, rank_mem_renumber hu (hu i hi)]
  · intro hi
    rwa [← rank_mem_renumber hu (hv i hi), h, rank_mem_renumber hv (hv i hi)]

theorem exists_renumber {t : WordSet} (ht : ∀ k ∈ t, k < s.size) :
    ∃ u, (∀ i ∈ u, i ∈ s) ∧ t = s.renumber u := by
  refine ⟨.ofList (s.toList.filter (s.rank · ∈ t)), ?_, ?_⟩
  · intro i hi
    exact mem_toList.1 (List.mem_filter.1 (mem_ofList.1 hi)).1
  · apply ext
    intro k
    simp only [mem_renumber, mem_ofList, List.mem_filter, mem_toList, decide_eq_true_eq]
    constructor
    · intro hk
      obtain ⟨i, hi, hrank⟩ := exists_rank (ht k hk)
      exact ⟨i, ⟨hi, hrank.symm ▸ hk⟩, hrank⟩
    · rintro ⟨i, ⟨_, hmem⟩, rfl⟩
      exact hmem

end WordSet

end FedPlan
