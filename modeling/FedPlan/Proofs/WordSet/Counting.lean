import FedPlan.WordSet.Traversal

/-!
# Counting and listing members

The size of a set, which is counted word by word, is the length of the list of its members. Lists of
members of sets that are put together or taken apart are the same up to their order. A union over a
list has the members of the sets that the list gives.
-/

namespace FedPlan

namespace WordSet

/-! ## Size -/

private theorem cpop_eq_countP (w : UInt64) :
    w.toBitVec.cpop.toNat = (List.range 64).countP (fun j => w.toBitVec.getLsbD j) := by
  have hprefix : ∀ n, w.toBitVec.cpopNatRec n 0 =
      (List.range n).countP (fun j => w.toBitVec.getLsbD j) := by
    intro n
    induction n with
    | zero => rfl
    | succ n ih =>
      rw [BitVec.cpopNatRec_succ, BitVec.cpopNatRec_add, ih, List.range_succ, List.countP_append]
      cases h : w.toBitVec.getLsbD n <;> simp [h]
  rw [BitVec.toNat_cpop, hprefix 64]

/-- The positions at which one of the words has a bit. -/
private def bitAt (ws : List UInt64) (n : Nat) : Bool :=
  (wordAt ws (n / 64)).toBitVec.getLsbD (n % 64)

private theorem countP_bitAt (ws : List UInt64) :
    (List.range (64 * ws.length)).countP (bitAt ws) = countBits ws := by
  induction ws with
  | nil => rfl
  | cons w ws ih =>
    have hlen : 64 * (w :: ws).length = 64 + 64 * ws.length := by
      simp only [List.length_cons]
      omega
    have hlow : (List.range 64).countP (bitAt (w :: ws)) = w.toBitVec.cpop.toNat := by
      rw [cpop_eq_countP]
      apply List.countP_congr
      intro j hj
      have hj : j < 64 := List.mem_range.1 hj
      rw [bitAt, Nat.div_eq_of_lt hj, Nat.mod_eq_of_lt hj, wordAt_cons_zero]
    have hhigh : (bitAt (w :: ws)) ∘ (64 + ·) = bitAt ws := by
      funext n
      have hdiv : (64 + n) / 64 = n / 64 + 1 := by omega
      have hmod : (64 + n) % 64 = n % 64 := by omega
      simp [bitAt, hdiv, hmod]
    rw [hlen, List.range_add, List.countP_append, List.countP_map, hlow, hhigh, ih, countBits,
      countBits, List.foldr_cons]

private theorem lt_of_mem {s : WordSet} {n : Nat} (h : n ∈ s) : n < 64 * s.words.length := by
  apply Nat.lt_of_not_le
  intro hn
  have hlen : s.words.length ≤ n / 64 := by omega
  rw [mem_iff_getLsbD, wordAt, List.getElem?_eq_none hlen] at h
  simp at h

theorem size_eq_length (s : WordSet) : s.size = s.toList.length := by
  have hperm : s.toList.Perm ((List.range (64 * s.words.length)).filter (bitAt s.words)) := by
    apply (List.perm_ext_iff_of_nodup s.nodup_toList (List.nodup_range.filter _)).2
    intro n
    rw [mem_toList, List.mem_filter, List.mem_range]
    constructor
    · intro h
      exact ⟨lt_of_mem h, mem_iff_getLsbD.1 h⟩
    · intro h
      exact mem_iff_getLsbD.2 h.2
  rw [size, ← countP_bitAt, List.countP_eq_length_filter, hperm.length_eq]

theorem two_le_size_iff {s : WordSet} : 2 ≤ s.size ↔ ∃ i j rest, s.toList = i :: j :: rest := by
  rw [size_eq_length]
  rcases h : s.toList with _ | ⟨i, _ | ⟨j, rest⟩⟩
  · simp
  · simp
  · simp

theorem exists_mem_of_two_le_size {s : WordSet} (h : 2 ≤ s.size) :
    ∃ i ∈ s, ∃ j ∈ s, i ≠ j := by
  obtain ⟨i, j, rest, he⟩ := two_le_size_iff.1 h
  have hnd : (i :: j :: rest).Nodup := he ▸ s.nodup_toList
  have hi : i ∈ s := mem_toList.1 (he ▸ List.mem_cons_self)
  have hj : j ∈ s := mem_toList.1 (he ▸ List.mem_cons_of_mem i List.mem_cons_self)
  refine ⟨i, hi, j, hj, ?_⟩
  intro hij
  exact (List.nodup_cons.1 hnd).1 (hij ▸ List.mem_cons_self)

theorem exists_mem_ne_of_two_le_size {s : WordSet} (h : 2 ≤ s.size) (k : Nat) :
    ∃ i ∈ s, i ≠ k := by
  obtain ⟨i, hi, j, hj, hij⟩ := exists_mem_of_two_le_size h
  by_cases he : i = k
  · exact ⟨j, hj, fun hjk => hij (he.trans hjk.symm)⟩
  · exact ⟨i, hi, he⟩

/-! ## Lists of members -/

/-- An ascending list is determined by its members. -/
theorem eq_of_ascending {ms ns : List Nat} (hms : ms.Pairwise (· < ·)) (hns : ns.Pairwise (· < ·))
    (h : ∀ n, n ∈ ms ↔ n ∈ ns) : ms = ns := by
  have hperm : ms.Perm ns :=
    (List.perm_ext_iff_of_nodup (hms.imp Nat.ne_of_lt) (hns.imp Nat.ne_of_lt)).2 h
  exact hperm.eq_of_pairwise (fun a b _ _ hab hba => absurd hab (Nat.lt_asymm hba)) hms hns

theorem toList_perm {s : WordSet} {is : List Nat} (hnd : is.Nodup) (h : ∀ n, n ∈ is ↔ n ∈ s) :
    s.toList.Perm is := by
  apply (List.perm_ext_iff_of_nodup s.nodup_toList hnd).2
  intro n
  rw [mem_toList, h]

theorem toList_perm_append {s t u : WordSet} (h : ∀ n, n ∈ s ↔ n ∈ t ∨ n ∈ u)
    (hdisj : ∀ n ∈ t, n ∉ u) : s.toList.Perm (t.toList ++ u.toList) := by
  apply toList_perm
  · refine List.nodup_append.2 ⟨t.nodup_toList, u.nodup_toList, ?_⟩
    intro a ha b hb he
    exact hdisj a (mem_toList.1 ha) (mem_toList.1 (he ▸ hb))
  · simp [h]

theorem toList_perm_of_subset {s t : WordSet} (h : ∀ n ∈ t, n ∈ s) :
    s.toList.Perm ((s \ t).toList ++ t.toList) := by
  apply toList_perm_append
  · intro n
    by_cases ht : n ∈ t
    · simp [ht, h n ht]
    · simp [ht]
  · simp

theorem toList_insert_perm {s : WordSet} {i : Nat} (h : i ∉ s) :
    (s.insert i).toList.Perm (i :: s.toList) := by
  apply toList_perm
  · exact List.nodup_cons.2 ⟨by simpa using h, s.nodup_toList⟩
  · simp

theorem size_of_subset {s t : WordSet} (h : ∀ n ∈ t, n ∈ s) : s.size = (s \ t).size + t.size := by
  simp only [size_eq_length, (toList_perm_of_subset h).length_eq, List.length_append]

theorem size_le_of_subset {s t : WordSet} (h : ∀ n ∈ t, n ∈ s) : t.size ≤ s.size := by
  rw [size_of_subset h]
  exact Nat.le_add_left _ _

theorem insert_of_mem {s : WordSet} {i : Nat} (h : i ∈ s) : s.insert i = s := by
  apply ext
  intro n
  rw [mem_insert]
  constructor
  · intro hn
    rcases hn with rfl | hn
    · exact h
    · exact hn
  · exact Or.inr

theorem size_insert_le (s : WordSet) (i : Nat) : (s.insert i).size ≤ s.size + 1 := by
  by_cases h : i ∈ s
  · rw [insert_of_mem h]
    exact Nat.le_succ _
  · simp [size_eq_length, (toList_insert_perm h).length_eq]

theorem insert_erase {s : WordSet} {i : Nat} (h : i ∈ s) : (s.erase i).insert i = s := by
  apply ext
  intro n
  by_cases hn : n = i
  · simp [hn, h]
  · simp [hn]

theorem size_sdiff_insert {s t : WordSet} {i : Nat} (hi : i ∈ s) (hnot : i ∉ t) :
    (s \ t).size = (s \ t.insert i).size + 1 := by
  have hsplit : ∀ n, n ∈ s \ t ↔ n ∈ (s \ t.insert i).insert i := by
    intro n
    by_cases he : n = i
    · simp [he, hi, hnot]
    · simp [he]
  rw [ext hsplit, size_eq_length, size_eq_length, (toList_insert_perm (by simp)).length_eq,
    List.length_cons]

theorem toList_eq_nil_iff {s : WordSet} : s.toList = [] ↔ ∀ n, n ∉ s := by
  rw [List.eq_nil_iff_forall_not_mem]
  simp

/-! ## Unions -/

theorem mem_foldl_union {α : Type} {f : α → WordSet} {xs : List α} {s : WordSet} {n : Nat} :
    n ∈ xs.foldl (fun s x => s ∪ f x) s ↔ n ∈ s ∨ ∃ x ∈ xs, n ∈ f x := by
  induction xs generalizing s with
  | nil => simp
  | cons x xs ih =>
    rw [List.foldl_cons, ih, mem_union]
    simp [or_assoc]

end WordSet

end FedPlan
