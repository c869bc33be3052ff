import FedPlan.WordSet.Cursor
import FedPlan.WordSet.Membership

/-!
# Exactness of the traversal

A step of a cursor yields the least position ahead and leaves the other ones ahead; at the end there
is nothing ahead, however often it is asked. So the members of a set are listed exactly, in ascending
order.
-/

namespace FedPlan

namespace WordSet

namespace Cursor

/-! ## The lowest bit of a word -/

private theorem exists_lowest_bit {w : UInt64} (hw : w ≠ 0) :
    ∃ k, w.toNat.testBit k = true ∧ ∀ j < k, w.toNat.testBit j = false := by
  have hne : w.toBitVec ≠ 0#64 := fun h => hw (UInt64.toBitVec_inj.1 h)
  exact ⟨_, BitVec.getLsbD_true_ctz_of_ne_zero hne, fun _ hj => BitVec.getLsbD_false_of_lt_ctz hj⟩

private theorem testBit_and_pred {x k : Nat} (hk : x.testBit k = true)
    (hlow : ∀ j < k, x.testBit j = false) (j : Nat) :
    (x &&& (x - 1)).testBit j = (x.testBit j && decide (j ≠ k)) := by
  have hmod : x % 2 ^ (k + 1) = 2 ^ k := by
    apply Nat.eq_of_testBit_eq
    intro i
    rw [Nat.testBit_mod_two_pow, Nat.testBit_two_pow]
    rcases Nat.lt_trichotomy i k with hi | rfl | hi
    · simp [hlow i hi, Nat.ne_of_gt hi]
    · simp [hk]
    · have : ¬i < k + 1 := by omega
      simp [this, Nat.ne_of_lt hi]
  have hlt : 2 ^ k < 2 ^ (k + 1) := Nat.pow_lt_pow_right (by decide) (Nat.lt_succ_self k)
  have hpos : 0 < 2 ^ k := Nat.two_pow_pos k
  have hx : 2 ^ (k + 1) * (x / 2 ^ (k + 1)) + 2 ^ k = x := by
    rw [← hmod]
    exact Nat.div_add_mod x _
  have hpred : x - 1 = 2 ^ (k + 1) * (x / 2 ^ (k + 1)) + (2 ^ k - 1) := by omega
  have hbit : ∀ i, (x - 1).testBit i =
      if i < k + 1 then decide (i < k) else (x / 2 ^ (k + 1)).testBit (i - (k + 1)) := by
    intro i
    rw [hpred, Nat.testBit_two_pow_mul_add _ (by omega), Nat.testBit_two_pow_sub_one]
  have hself : ∀ i, x.testBit i =
      if i < k + 1 then decide (k = i) else (x / 2 ^ (k + 1)).testBit (i - (k + 1)) := by
    intro i
    rw [← Nat.testBit_two_pow, ← Nat.testBit_two_pow_mul_add _ hlt, hx]
  rw [Nat.testBit_and, hbit j]
  split
  · next h =>
    rcases Nat.lt_or_ge j k with hj | hj
    · simp [hlow j hj]
    · have : j = k := by omega
      simp [this]
  · next h =>
    have hne : j ≠ k := by omega
    rw [hself j]
    simp [h, hne]

private theorem toNat_and_pred {w : UInt64} (hw : w ≠ 0) :
    (w &&& (w - 1)).toNat = w.toNat &&& (w.toNat - 1) := by
  have hle : (1 : UInt64) ≤ w := by
    rw [UInt64.le_iff_toNat_le]
    exact Nat.pos_of_ne_zero fun h => hw (UInt64.toNat_inj.1 h)
  rw [UInt64.toNat_and, UInt64.toNat_sub_of_le w 1 hle]
  rfl

private theorem firstBit_eq {w : UInt64} {k : Nat} (hw : w ≠ 0) (hk : w.toNat.testBit k = true)
    (hlow : ∀ j < k, w.toNat.testBit j = false) : firstBit w = k := by
  have hxor : (w ^^^ (w &&& (w - 1))).toNat = 2 ^ k := by
    apply Nat.eq_of_testBit_eq
    intro j
    rw [UInt64.toNat_xor, Nat.testBit_xor, toNat_and_pred hw, testBit_and_pred hk hlow,
      Nat.testBit_two_pow]
    by_cases hj : j = k
    · simp [hj, hk]
    · simp [hj, Ne.symm hj]
  change (w ^^^ (w &&& (w - 1))).toNat.log2 = k
  rw [hxor, Nat.log2_two_pow]

private theorem testBit_firstBit {w : UInt64} (hw : w ≠ 0) :
    w.toBitVec.getLsbD (firstBit w) = true := by
  obtain ⟨k, hk, hlow⟩ := exists_lowest_bit hw
  rw [firstBit_eq hw hk hlow]
  exact hk

private theorem firstBit_le {w : UInt64} (hw : w ≠ 0) {j : Nat}
    (hj : w.toBitVec.getLsbD j = true) : firstBit w ≤ j := by
  obtain ⟨k, hk, hlow⟩ := exists_lowest_bit hw
  rw [firstBit_eq hw hk hlow]
  apply Nat.le_of_not_lt
  intro hlt
  exact Bool.false_ne_true ((hlow j hlt).symm.trans hj)

private theorem getLsbD_clear {w : UInt64} (hw : w ≠ 0) (j : Nat) :
    (w &&& (w - 1)).toBitVec.getLsbD j = (w.toBitVec.getLsbD j && decide (j ≠ firstBit w)) := by
  obtain ⟨k, hk, hlow⟩ := exists_lowest_bit hw
  rw [firstBit_eq hw hk hlow]
  change (w &&& (w - 1)).toNat.testBit j = _
  rw [toNat_and_pred hw, testBit_and_pred hk hlow]
  rfl

/-! ## Steps -/

/-- The positions that a cursor has not passed yet. -/
def Ahead (c : Cursor) (n : Nat) : Prop :=
  c.index ≤ n / 64 ∧
    (wordAt (c.current :: c.rest) (n / 64 - c.index)).toBitVec.getLsbD (n % 64) = true

/-- Positions ahead lie below this bound, which no step that yields one changes. -/
def bound (c : Cursor) : Nat := 64 * (c.index + c.rest.length + 1)

private theorem firstBit_lt {w : UInt64} (hw : w ≠ 0) : firstBit w < 64 :=
  BitVec.lt_of_getLsbD (testBit_firstBit hw)

/-- What a step that yields `n` means for the positions ahead. -/
structure Yields (c : Cursor) (n : Nat) (c' : Cursor) : Prop where
  ahead : c.Ahead n
  least : ∀ m, c.Ahead m → n ≤ m
  rest : ∀ m, c'.Ahead m ↔ c.Ahead m ∧ m ≠ n
  bound_eq : c'.bound = c.bound

private theorem ahead_take {w : UInt64} (hw : w ≠ 0) (ws : List UInt64) (index : Nat) :
    Yields ⟨w, ws, index⟩ (index * 64 + firstBit w) ⟨w &&& (w - 1), ws, index⟩ := by
  have hlt := firstBit_lt hw
  have hdiv : (index * 64 + firstBit w) / 64 = index := by omega
  have hmod : (index * 64 + firstBit w) % 64 = firstBit w := by omega
  refine ⟨⟨Nat.le_of_eq hdiv.symm, ?_⟩, ?_, ?_, rfl⟩
  · simp only [hdiv, hmod, Nat.sub_self, wordAt_cons_zero]
    exact testBit_firstBit hw
  · intro m hahead
    obtain ⟨hm, hbit⟩ := hahead
    dsimp only at hm hbit
    rcases Nat.lt_or_ge index (m / 64) with h | h
    · omega
    · have hsub : m / 64 - index = 0 := by omega
      rw [hsub] at hbit
      have := firstBit_le hw hbit
      omega
  · intro m
    rcases Nat.lt_trichotomy (m / 64) index with h | h | h
    · simp [Ahead, Nat.not_le.2 h]
    · have hne : m % 64 ≠ firstBit w ↔ m ≠ index * 64 + firstBit w := by omega
      simp only [Ahead, h, Nat.le_refl, Nat.sub_self, wordAt_cons_zero, getLsbD_clear hw, true_and,
        Bool.and_eq_true, decide_eq_true_eq, hne]
    · obtain ⟨k, hk⟩ := Nat.exists_eq_succ_of_ne_zero (n := m / 64 - index) (by omega)
      have hne : m ≠ index * 64 + firstBit w := by omega
      simp [Ahead, hk, hne]

private theorem ahead_skip (w : UInt64) (ws : List UInt64) (index n : Nat) :
    Ahead ⟨0, w :: ws, index⟩ n ↔ Ahead ⟨w, ws, index + 1⟩ n := by
  simp only [Ahead]
  rcases Nat.lt_or_ge index (n / 64) with h | h
  · have hsub : n / 64 - index = n / 64 - (index + 1) + 1 := by omega
    have hle : index ≤ n / 64 := Nat.le_of_lt h
    simp [hsub, hle, Nat.succ_le_of_lt h]
  · have hnot : ¬index + 1 ≤ n / 64 := by omega
    have hsub : n / 64 - index = 0 := by omega
    simp [hsub, hnot]

private theorem not_ahead_nil (index n : Nat) : ¬Ahead ⟨0, [], index⟩ n := by
  intro hahead
  obtain ⟨_, hbit⟩ := hahead
  cases h : n / 64 - index <;> simp [h] at hbit

private theorem yields_skip {w : UInt64} {ws : List UInt64} {index n : Nat} {c' : Cursor}
    (h : Yields ⟨w, ws, index + 1⟩ n c') : Yields ⟨0, w :: ws, index⟩ n c' := by
  have hskip := ahead_skip w ws index
  refine ⟨(hskip n).2 h.ahead, fun m hm => h.least m ((hskip m).1 hm), ?_, ?_⟩
  · intro m
    rw [h.rest m, hskip m]
  · rw [h.bound_eq]
    simp only [bound, List.length_cons]
    omega

private theorem skip_cases (index : Nat) (ws : List UInt64) :
    (∃ c', skip index ws = (none, c') ∧ (∀ n, ¬Ahead ⟨0, ws, index⟩ n) ∧ ∀ n, ¬c'.Ahead n) ∨
      ∃ n c', skip index ws = (some n, c') ∧ Yields ⟨0, ws, index⟩ n c' := by
  induction ws generalizing index with
  | nil => exact .inl ⟨_, rfl, not_ahead_nil index, not_ahead_nil (index + 1)⟩
  | cons w ws ih =>
    by_cases hw : w = 0
    · subst hw
      have hstep : skip index (0 :: ws) = skip (index + 1) ws := rfl
      rw [hstep]
      rcases ih (index + 1) with ⟨c', he, hnone, hstays⟩ | ⟨n, c', he, hy⟩
      · exact .inl ⟨c', he, fun n hn => hnone n ((ahead_skip 0 ws index n).1 hn), hstays⟩
      · exact .inr ⟨n, c', he, yields_skip hy⟩
    · have hstep : skip index (w :: ws) = take w ws (index + 1) := if_neg hw
      exact .inr ⟨_, _, hstep, yields_skip (ahead_take hw ws (index + 1))⟩

/-- A step either finds nothing ahead, and then there is nothing ahead afterwards either, or yields the
least position ahead. -/
theorem next_cases (c : Cursor) :
    (∃ c', c.next = (none, c') ∧ (∀ n, ¬c.Ahead n) ∧ ∀ n, ¬c'.Ahead n) ∨
      ∃ n c', c.next = (some n, c') ∧ c.Yields n c' := by
  obtain ⟨w, ws, index⟩ := c
  by_cases hw : w = 0
  · subst hw
    exact skip_cases index ws
  · have hstep : next ⟨w, ws, index⟩ = take w ws index := if_neg hw
    exact .inr ⟨_, _, hstep, ahead_take hw ws index⟩

private theorem lt_bound {c : Cursor} {n : Nat} (h : c.Ahead n) : n < c.bound := by
  obtain ⟨hle, hbit⟩ := h
  apply Nat.lt_of_not_le
  intro hn
  have hlen : (c.current :: c.rest).length ≤ n / 64 - c.index := by
    rw [bound] at hn
    simp only [List.length_cons]
    omega
  rw [wordAt_of_length_le hlen] at hbit
  simp at hbit

private theorem mem_collect {steps : Nat} {c : Cursor} (low : Nat) (hlow : ∀ n, c.Ahead n → low ≤ n)
    (hsteps : c.bound ≤ low + steps) (n : Nat) : n ∈ collect steps c ↔ c.Ahead n := by
  induction steps generalizing c low with
  | zero =>
    simp only [collect, List.not_mem_nil, false_iff]
    intro h
    have := hlow n h
    have := lt_bound h
    omega
  | succ steps ih =>
    rw [collect]
    rcases c.next_cases with ⟨c', he, hnone, _⟩ | ⟨m, c', he, hy⟩
    · simp [he, hnone]
    · have hm := hlow m hy.ahead
      have hrest : n ∈ collect steps c' ↔ c'.Ahead n := by
        apply ih (m + 1)
        · intro i hi
          obtain ⟨hi, hne⟩ := (hy.rest i).1 hi
          have := hy.least i hi
          omega
        · rw [hy.bound_eq]
          omega
      simp only [he, List.mem_cons, hrest, hy.rest n]
      constructor
      · intro h
        rcases h with rfl | h
        · exact hy.ahead
        · exact h.1
      · intro h
        by_cases hn : n = m
        · exact .inl hn
        · exact .inr ⟨h, hn⟩

private theorem ahead_of_mem_collect {steps : Nat} {c : Cursor} {n : Nat}
    (h : n ∈ collect steps c) : c.Ahead n := by
  induction steps generalizing c with
  | zero => simp [collect] at h
  | succ steps ih =>
    rw [collect] at h
    rcases c.next_cases with ⟨c', he, _, _⟩ | ⟨m, c', he, hy⟩
    · simp [he] at h
    · rw [he] at h
      rcases List.mem_cons.1 h with rfl | h
      · exact hy.ahead
      · exact ((hy.rest n).1 (ih h)).1

private theorem sorted_collect (steps : Nat) (c : Cursor) :
    (collect steps c).Pairwise (· < ·) := by
  induction steps generalizing c with
  | zero => simp [collect]
  | succ steps ih =>
    rw [collect]
    rcases c.next_cases with ⟨c', he, _, _⟩ | ⟨m, c', he, hy⟩
    · simp [he]
    · rw [he]
      refine List.pairwise_cons.2 ⟨?_, ih c'⟩
      intro n hn
      obtain ⟨hn, hne⟩ := (hy.rest n).1 (ahead_of_mem_collect hn)
      have := hy.least n hn
      omega

theorem mem_toList {c : Cursor} {n : Nat} : n ∈ c.toList ↔ c.Ahead n := by
  apply mem_collect (64 * c.index)
  · intro m hm
    have := hm.1
    omega
  · simp only [bound, wordBits]
    omega

theorem sorted_toList (c : Cursor) : c.toList.Pairwise (· < ·) := sorted_collect _ c

theorem next_fst_eq_head? (c : Cursor) : c.next.1 = c.toList.head? := by
  have hsteps : wordBits * (c.rest.length + 1) = wordBits * c.rest.length + 63 + 1 := by
    simp only [wordBits]
    omega
  rw [toList, hsteps, collect]
  rcases c.next_cases with ⟨c', he, _, _⟩ | ⟨m, c', he, _⟩ <;> simp [he]

end Cursor

/-! ## Members in order -/

theorem ahead_cursor {s : WordSet} {n : Nat} : s.cursor.Ahead n ↔ n ∈ s := by
  rw [mem_iff_getLsbD, cursor]
  cases s.words with
  | nil =>
    rw [Cursor.ofWords, Cursor.Ahead]
    cases n / 64 <;> simp
  | cons w ws => simp [Cursor.ofWords, Cursor.Ahead]

@[simp] theorem mem_toList {s : WordSet} {n : Nat} : n ∈ s.toList ↔ n ∈ s :=
  Cursor.mem_toList.trans ahead_cursor

theorem sorted_toList (s : WordSet) : s.toList.Pairwise (· < ·) := s.cursor.sorted_toList

theorem nodup_toList (s : WordSet) : s.toList.Nodup :=
  s.sorted_toList.imp Nat.ne_of_lt

theorem first?_eq_head? (s : WordSet) : s.first? = s.toList.head? := s.cursor.next_fst_eq_head?

theorem mem_of_first? {s : WordSet} {n : Nat} (h : s.first? = some n) : n ∈ s := by
  rw [first?_eq_head?] at h
  exact mem_toList.1 (List.mem_of_head? h)

end WordSet

end FedPlan
