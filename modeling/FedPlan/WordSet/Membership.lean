import FedPlan.WordSet.Basic

/-!
# Membership in sets of positions

Each operation is described by the members of its result. Sets with the same members are equal,
because the last word of a set is never zero.
-/

namespace FedPlan

namespace WordSet

/-! ## Members -/

theorem mem_iff_getLsbD {s : WordSet} {n : Nat} :
    n ∈ s ↔ (wordAt s.words (n / 64)).toBitVec.getLsbD (n % 64) = true := by
  rw [← hasBit_eq_getLsbD]
  rfl

private theorem eq_of_div_mod {m n : Nat} (hdiv : m / 64 = n / 64) (hmod : n % 64 = m % 64) :
    m = n := by omega

@[simp] theorem not_mem_empty (n : Nat) : n ∉ (∅ : WordSet) := by
  rw [mem_iff_getLsbD]
  change ¬(wordAt [] _).toBitVec.getLsbD _ = true
  simp

@[simp] theorem mem_insert {s : WordSet} {m n : Nat} : m ∈ s.insert n ↔ m = n ∨ m ∈ s := by
  rw [mem_iff_getLsbD, insert, wordAt_setBit, mem_iff_getLsbD]
  split
  · next h =>
    rw [UInt64.toBitVec_or, BitVec.getLsbD_or, getLsbD_bit, Bool.or_eq_true, decide_eq_true_eq,
      or_comm]
    exact or_congr_left ⟨eq_of_div_mod h, fun he => he ▸ rfl⟩
  · next h =>
    have hne : m ≠ n := fun he => h (he ▸ rfl)
    simp [hne]

@[simp] theorem mem_erase {s : WordSet} {m n : Nat} : m ∈ s.erase n ↔ m ≠ n ∧ m ∈ s := by
  rw [mem_iff_getLsbD, erase, wordAt_clearBit, mem_iff_getLsbD]
  have hlt : m % 64 < 64 := Nat.mod_lt _ (by decide)
  split
  · next h =>
    rw [UInt64.toBitVec_and, UInt64.toBitVec_not, BitVec.getLsbD_and, BitVec.getLsbD_not,
      getLsbD_bit, Bool.and_eq_true, and_comm]
    apply and_congr_left'
    simp only [hlt, decide_true, Bool.true_and, Bool.not_eq_true', decide_eq_false_iff_not]
    exact not_congr ⟨fun he => eq_of_div_mod h.symm he, fun he => he ▸ rfl⟩
  · next h =>
    have hne : m ≠ n := fun he => h (he ▸ rfl)
    simp [hne]

@[simp] theorem mem_singleton {m n : Nat} : m ∈ singleton n ↔ m = n := by
  simp [singleton]

@[simp] theorem mem_insertAll {s : WordSet} {ns : List Nat} {m : Nat} :
    m ∈ s.insertAll ns ↔ m ∈ s ∨ m ∈ ns := by
  induction ns generalizing s with
  | nil => simp [insertAll]
  | cons n ns ih =>
    change m ∈ (s.insert n).insertAll ns ↔ _
    rw [ih, mem_insert, List.mem_cons, or_comm (a := m = n), or_assoc]

@[simp] theorem mem_ofList {ns : List Nat} {m : Nat} : m ∈ ofList ns ↔ m ∈ ns := by
  simp [ofList]

@[simp] theorem mem_union {s t : WordSet} {n : Nat} : n ∈ s ∪ t ↔ n ∈ s ∨ n ∈ t := by
  rw [mem_iff_getLsbD, mem_iff_getLsbD, mem_iff_getLsbD]
  change (wordAt (orWords s.words t.words) _).toBitVec.getLsbD _ = true ↔ _
  rw [wordAt_orWords, UInt64.toBitVec_or, BitVec.getLsbD_or, Bool.or_eq_true]

@[simp] theorem mem_inter {s t : WordSet} {n : Nat} : n ∈ s ∩ t ↔ n ∈ s ∧ n ∈ t := by
  rw [mem_iff_getLsbD, mem_iff_getLsbD, mem_iff_getLsbD]
  change (wordAt (andWords s.words t.words) _).toBitVec.getLsbD _ = true ↔ _
  rw [wordAt_andWords, UInt64.toBitVec_and, BitVec.getLsbD_and, Bool.and_eq_true]

@[simp] theorem mem_sdiff {s t : WordSet} {n : Nat} : n ∈ s \ t ↔ n ∈ s ∧ n ∉ t := by
  rw [mem_iff_getLsbD, mem_iff_getLsbD, mem_iff_getLsbD]
  change (wordAt (andNotWords s.words t.words) _).toBitVec.getLsbD _ = true ↔ _
  have hlt : n % 64 < 64 := Nat.mod_lt _ (by decide)
  rw [wordAt_andNotWords, UInt64.toBitVec_and, UInt64.toBitVec_not, BitVec.getLsbD_and,
    BitVec.getLsbD_not, Bool.and_eq_true]
  simp [hlt]

@[simp] theorem mem_range {m n : Nat} : m ∈ range n ↔ m < n := by
  have hlt : m % 64 < 64 := Nat.mod_lt _ (by decide)
  rw [mem_iff_getLsbD, range, wordAt_ones]
  split
  · next h =>
    have hall : ((0 : UInt64) - 1).toBitVec = BitVec.allOnes 64 := by decide
    simp only [hall, BitVec.getLsbD_allOnes, hlt, decide_true, true_iff]
    omega
  · split
    · next h he =>
      rw [getLsbD_bit_sub_one, decide_eq_true_eq]
      omega
    · next h he =>
      simp only [UInt64.toBitVec_zero, BitVec.getLsbD_zero, Bool.false_eq_true, false_iff]
      omega

/-! ## Equality and comparison -/

/-- Sets with the same members are the same set. -/
theorem ext {s t : WordSet} (h : ∀ n, n ∈ s ↔ n ∈ t) : s = t := by
  apply words_inj.1
  apply s.canonical.ext t.canonical
  apply forall_word_eq_iff.2
  intro n
  rw [Bool.eq_iff_iff, ← mem_iff_getLsbD, ← mem_iff_getLsbD]
  exact h n

theorem inter_comm (s t : WordSet) : s ∩ t = t ∩ s := by
  apply ext
  simp [and_comm]

theorem isEmpty_iff {s : WordSet} : s.isEmpty = true ↔ s = ∅ := by
  constructor
  · intro h
    cases s
    cases List.isEmpty_iff.1 h
    rfl
  · intro h
    rw [h]
    rfl

theorem isEmpty_iff_forall {s : WordSet} : s.isEmpty = true ↔ ∀ n, n ∉ s := by
  rw [isEmpty_iff]
  constructor
  · intro h
    rw [h]
    exact not_mem_empty
  · intro h
    apply ext
    simpa using h

theorem isSubset_iff {s t : WordSet} : s.isSubset t = true ↔ ∀ n ∈ s, n ∈ t := by
  rw [isSubset, within_iff s.canonical, forall_word_eq_iff]
  refine forall_congr' fun n => ?_
  have hlt : n % 64 < 64 := Nat.mod_lt _ (by decide)
  simp [mem_iff_getLsbD, hlt]

theorem isDisjoint_iff {s t : WordSet} : s.isDisjoint t = true ↔ ∀ n ∈ s, n ∉ t := by
  rw [isDisjoint, apart_iff, forall_word_eq_iff]
  refine forall_congr' fun n => ?_
  simp [mem_iff_getLsbD]

end WordSet

end FedPlan
