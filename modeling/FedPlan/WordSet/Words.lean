/-!
# Lists of words

Finite sets of natural numbers are stored as lists of 64-bit words: bit `n % 64` of word `n / 64`
tells whether `n` is a member, and behind the last word there are only zeros. A list is canonical if
its last word is not zero. Here is what each operation makes of the words, and that it leads from
canonical lists to canonical lists.
-/

namespace FedPlan

namespace WordSet

def wordBits : Nat := 64

/-- The word whose only bit is the one of `n`. -/
def bit (n : Nat) : UInt64 := 1 <<< UInt64.ofNat (n % wordBits)

/-- The word at `k`; behind the last word there are only zeros. -/
def wordAt (ws : List UInt64) (k : Nat) : UInt64 := ws[k]?.getD 0

def hasBit (ws : List UInt64) (n : Nat) : Bool := wordAt ws (n / wordBits) &&& bit n != 0

/-- Drops the zero words at the end. -/
def trim : List UInt64 → List UInt64
  | [] => []
  | w :: ws =>
    match trim ws with
    | [] => if w = 0 then [] else [w]
    | v :: vs => w :: v :: vs

/-- Sets the bits of `mask` in the word at a place, which may lie behind the last one. -/
def orAt (mask : UInt64) : Nat → List UInt64 → List UInt64
  | 0, [] => [mask]
  | 0, w :: ws => (w ||| mask) :: ws
  | k + 1, [] => 0 :: orAt mask k []
  | k + 1, w :: ws => w :: orAt mask k ws

/-- Clears the bits of `mask` in the word at a place, if there is one. -/
def clearAt (mask : UInt64) (k : Nat) (ws : List UInt64) : List UInt64 :=
  if k < ws.length then trim (ws.modify k (· &&& ~~~mask)) else ws

def setBit (ws : List UInt64) (n : Nat) : List UInt64 := orAt (bit n) (n / wordBits) ws

def clearBit (ws : List UInt64) (n : Nat) : List UInt64 := clearAt (bit n) (n / wordBits) ws

/-- The words of the positions below `n`: full ones, and a last one that is filled in part unless `n`
is at the border of a word. -/
def ones (n : Nat) : List UInt64 :=
  List.replicate (n / wordBits) (0 - 1) ++ if n % wordBits = 0 then [] else [bit n - 1]

def orWords : List UInt64 → List UInt64 → List UInt64
  | [], vs => vs
  | w :: ws, [] => w :: ws
  | w :: ws, v :: vs => (w ||| v) :: orWords ws vs

def andWords (ws vs : List UInt64) : List UInt64 := trim (List.zipWith (· &&& ·) ws vs)

def clearWords : List UInt64 → List UInt64 → List UInt64
  | [], _ => []
  | w :: ws, [] => w :: ws
  | w :: ws, v :: vs => (w &&& ~~~v) :: clearWords ws vs

def andNotWords (ws vs : List UInt64) : List UInt64 := trim (clearWords ws vs)

/-- No word has a bit that the other list lacks. Words without a counterpart are not looked at: the last
one of a canonical list is not zero, so there may be none of them. -/
def within (ws vs : List UInt64) : Bool :=
  decide (ws.length ≤ vs.length) && (List.zipWith (· &&& ~~~·) ws vs).all (· == 0)

def apart (ws vs : List UInt64) : Bool := (List.zipWith (· &&& ·) ws vs).all (· == 0)

/-- The number of bits, counted word by word. -/
def countBits (ws : List UInt64) : Nat := ws.foldr (fun w n => w.toBitVec.cpop.toNat + n) 0

/-! ## Bits of a word -/

theorem toBitVec_bit (n : Nat) : (bit n).toBitVec = BitVec.twoPow 64 (n % 64) := by
  have h : n % 64 < 64 := Nat.mod_lt _ (by decide)
  apply BitVec.eq_of_toNat_eq
  simp [bit, wordBits, BitVec.twoPow_eq, UInt64.toBitVec_shiftLeft, Nat.mod_eq_of_lt h]

theorem getLsbD_bit (n j : Nat) : (bit n).toBitVec.getLsbD j = decide (n % 64 = j) := by
  have h : n % 64 < 64 := Nat.mod_lt _ (by decide)
  simp [toBitVec_bit, BitVec.getLsbD_twoPow, h]

theorem bit_ne_zero (n : Nat) : bit n ≠ 0 := by
  intro he
  have h := getLsbD_bit n (n % 64)
  simp [he] at h

theorem and_bit_bne_zero (w : UInt64) (n : Nat) :
    (w &&& bit n != 0) = w.toBitVec.getLsbD (n % 64) := by
  rw [Bool.eq_iff_iff, bne_iff_ne, ne_eq, ← UInt64.toBitVec_inj, UInt64.toBitVec_and, toBitVec_bit,
    BitVec.and_twoPow]
  have hne : BitVec.twoPow 64 (n % 64) ≠ 0#64 := by
    rw [← toBitVec_bit]
    exact fun he => bit_ne_zero n (UInt64.toBitVec_inj.1 he)
  cases w.toBitVec.getLsbD (n % 64) <;> simp [hne]

theorem getLsbD_bit_sub_one (n j : Nat) :
    (bit n - 1).toBitVec.getLsbD j = decide (j < n % 64) := by
  have h : n % 64 < 64 := Nat.mod_lt _ (by decide)
  have hbit : (bit n).toBitVec.toNat = 2 ^ (n % 64) := by
    rw [toBitVec_bit, BitVec.toNat_twoPow, Nat.mod_eq_of_lt (Nat.pow_lt_pow_right (by decide) h)]
  have hpos : 0 < 2 ^ (n % 64) := Nat.two_pow_pos _
  have hsub : (bit n - 1).toBitVec.toNat = 2 ^ (n % 64) - 1 := by
    have hle : (1 : UInt64) ≤ bit n := by
      rw [UInt64.le_iff_toNat_le]
      exact Nat.le_trans hpos (Nat.le_of_eq hbit.symm)
    have := UInt64.toNat_sub_of_le (bit n) 1 hle
    rw [← UInt64.toNat_toBitVec] at this
    rw [this, ← UInt64.toNat_toBitVec, hbit]
    rfl
  rw [BitVec.getLsbD, hsub, Nat.testBit_two_pow_sub_one]

theorem bit_sub_one_ne_zero {n : Nat} (h : n % 64 ≠ 0) : bit n - 1 ≠ 0 := by
  intro he
  have hlow := getLsbD_bit_sub_one n 0
  simp [he] at hlow
  exact h hlow

/-- Words are the same if and only if they have the same bits at all positions. -/
theorem forall_word_eq_iff {word word' : Nat → UInt64} : (∀ k, word k = word' k) ↔
    ∀ n, (word (n / 64)).toBitVec.getLsbD (n % 64) = (word' (n / 64)).toBitVec.getLsbD (n % 64) := by
  constructor
  · intro h n
    rw [h]
  · intro h k
    apply UInt64.toBitVec_inj.1
    apply BitVec.eq_of_getLsbD_eq
    intro j hj
    have hn := h (64 * k + j)
    have hdiv : (64 * k + j) / 64 = k := by omega
    have hmod : (64 * k + j) % 64 = j := by omega
    rwa [hdiv, hmod] at hn

/-! ## Words of a list -/

@[simp] theorem wordAt_nil (k : Nat) : wordAt [] k = 0 := rfl

@[simp] theorem wordAt_cons_zero (w : UInt64) (ws : List UInt64) : wordAt (w :: ws) 0 = w := rfl

@[simp] theorem wordAt_cons_succ (w : UInt64) (ws : List UInt64) (k : Nat) :
    wordAt (w :: ws) (k + 1) = wordAt ws k := rfl

theorem wordAt_of_length_le {ws : List UInt64} {k : Nat} (h : ws.length ≤ k) : wordAt ws k = 0 := by
  rw [wordAt, List.getElem?_eq_none h]
  rfl

theorem hasBit_eq_getLsbD (ws : List UInt64) (n : Nat) :
    hasBit ws n = (wordAt ws (n / 64)).toBitVec.getLsbD (n % 64) :=
  and_bit_bne_zero _ n

@[simp] theorem wordAt_trim (ws : List UInt64) (k : Nat) : wordAt (trim ws) k = wordAt ws k := by
  induction ws generalizing k with
  | nil => rfl
  | cons w ws ih =>
    rw [trim]
    split
    · next h =>
      rw [h] at ih
      split
      · next hw => cases k <;> simp [hw, ← ih]
      · cases k <;> simp [← ih]
    · next v vs h =>
      rw [h] at ih
      cases k
      · rfl
      · exact ih _

theorem wordAt_orAt (mask : UInt64) (i : Nat) (ws : List UInt64) (k : Nat) :
    wordAt (orAt mask i ws) k = if k = i then wordAt ws k ||| mask else wordAt ws k := by
  induction i generalizing ws k with
  | zero => cases ws <;> cases k <;> simp [orAt]
  | succ i ih => cases ws <;> cases k <;> simp [orAt, ih]

theorem wordAt_setBit (ws : List UInt64) (n k : Nat) :
    wordAt (setBit ws n) k = if k = n / 64 then wordAt ws k ||| bit n else wordAt ws k :=
  wordAt_orAt _ _ ws k

theorem wordAt_clearAt (mask : UInt64) (i : Nat) (ws : List UInt64) (k : Nat) :
    wordAt (clearAt mask i ws) k = if i = k then wordAt ws k &&& ~~~mask else wordAt ws k := by
  rw [clearAt]
  split
  · rw [wordAt_trim, wordAt, List.getElem?_modify]
    cases h : ws[k]? <;> simp [wordAt, h]
  · split
    · next hlen he =>
      rw [wordAt_of_length_le (by omega), UInt64.zero_and]
    · rfl

theorem wordAt_clearBit (ws : List UInt64) (n k : Nat) :
    wordAt (clearBit ws n) k = if n / 64 = k then wordAt ws k &&& ~~~bit n else wordAt ws k :=
  wordAt_clearAt _ _ ws k

theorem wordAt_ones (n k : Nat) : wordAt (ones n) k =
    if k < n / 64 then 0 - 1 else if k = n / 64 ∧ n % 64 ≠ 0 then bit n - 1 else 0 := by
  rw [ones, wordBits, wordAt]
  by_cases hk : k < n / 64
  · simp [List.getElem?_append_left, hk]
  · rw [if_neg hk, List.getElem?_append_right (by simpa using hk), List.length_replicate]
    by_cases hmod : n % 64 = 0
    · simp [hmod]
    · by_cases he : k = n / 64
      · simp [he, hmod]
      · have hne : k - n / 64 ≠ 0 := by omega
        simp [he, hmod, hne]

theorem wordAt_orWords (ws vs : List UInt64) (k : Nat) :
    wordAt (orWords ws vs) k = wordAt ws k ||| wordAt vs k := by
  induction ws generalizing vs k with
  | nil => simp [orWords]
  | cons w ws ih => cases vs <;> cases k <;> simp [orWords, ih]

theorem wordAt_andWords (ws vs : List UInt64) (k : Nat) :
    wordAt (andWords ws vs) k = wordAt ws k &&& wordAt vs k := by
  rw [andWords, wordAt_trim]
  induction ws generalizing vs k with
  | nil => simp
  | cons w ws ih => cases vs <;> cases k <;> simp [ih]

theorem wordAt_andNotWords (ws vs : List UInt64) (k : Nat) :
    wordAt (andNotWords ws vs) k = wordAt ws k &&& ~~~wordAt vs k := by
  rw [andNotWords, wordAt_trim]
  induction ws generalizing vs k with
  | nil => simp [clearWords]
  | cons w ws ih => cases vs <;> cases k <;> simp [clearWords, ih]

/-! ## Canonical lists -/

def Canonical (ws : List UInt64) : Prop := ws.getLast? ≠ some 0

variable {ws vs : List UInt64}

theorem canonical_nil : Canonical [] := by simp [Canonical]

theorem canonical_cons {w : UInt64} : Canonical (w :: ws) ↔ Canonical ws ∧ (ws = [] → w ≠ 0) := by
  cases ws <;> simp [Canonical, List.getLast?_cons_cons]

theorem canonical_trim (ws : List UInt64) : Canonical (trim ws) := by
  induction ws with
  | nil => exact canonical_nil
  | cons w ws ih =>
    rw [trim]
    split
    · split
      · exact canonical_nil
      · next hw => exact canonical_cons.2 ⟨canonical_nil, fun _ => hw⟩
    · next v vs h =>
      rw [h] at ih
      exact canonical_cons.2 ⟨ih, fun he => by cases he⟩

theorem canonical_orAt {mask : UInt64} (hmask : mask ≠ 0) (k : Nat) (h : Canonical ws) :
    Canonical (orAt mask k ws) := by
  have hne (k : Nat) (vs : List UInt64) : orAt mask k vs ≠ [] := by
    cases k <;> cases vs <;> simp [orAt]
  induction k generalizing ws with
  | zero =>
    cases ws with
    | nil => exact canonical_cons.2 ⟨canonical_nil, fun _ => hmask⟩
    | cons w ws =>
      refine canonical_cons.2 ⟨(canonical_cons.1 h).1, fun _ he => hmask ?_⟩
      exact (UInt64.or_eq_zero_iff.1 he).2
  | succ k ih =>
    cases ws with
    | nil => exact canonical_cons.2 ⟨ih canonical_nil, fun he => absurd he (hne k [])⟩
    | cons w ws =>
      exact canonical_cons.2 ⟨ih (canonical_cons.1 h).1, fun he => absurd he (hne k ws)⟩

theorem canonical_clearAt (mask : UInt64) (k : Nat) (h : Canonical ws) :
    Canonical (clearAt mask k ws) := by
  rw [clearAt]
  split
  · exact canonical_trim _
  · exact h

/-- The last word is a full one or has at least the bit of zero. -/
theorem canonical_ones (n : Nat) : Canonical (ones n) := by
  rw [ones, wordBits, Canonical, List.getLast?_append]
  split
  · simp [List.getLast?_replicate]
  · next h => simpa using bit_sub_one_ne_zero h

theorem canonical_orWords (hws : Canonical ws) (hvs : Canonical vs) :
    Canonical (orWords ws vs) := by
  induction ws generalizing vs with
  | nil => exact hvs
  | cons w ws ih =>
    cases vs with
    | nil => exact hws
    | cons v vs =>
      obtain ⟨hws, hw⟩ := canonical_cons.1 hws
      refine canonical_cons.2 ⟨ih hws (canonical_cons.1 hvs).1, fun he hzero => ?_⟩
      have hnil : ws = [] := by
        cases ws with
        | nil => rfl
        | cons u us => cases vs <;> simp [orWords] at he
      exact hw hnil (UInt64.or_eq_zero_iff.1 hzero).1

/-- A canonical list is no longer than a list with a word that is not zero wherever it has one. -/
theorem Canonical.length_le (h : Canonical ws) (hzero : ∀ k, wordAt vs k = 0 → wordAt ws k = 0) :
    ws.length ≤ vs.length := by
  apply Nat.le_of_not_lt
  intro hlt
  apply h
  have hword := hzero (ws.length - 1) (wordAt_of_length_le (by omega))
  rw [wordAt, List.getElem?_eq_getElem (by omega), Option.getD_some] at hword
  rw [List.getLast?_eq_getElem?, List.getElem?_eq_getElem (by omega), hword]

/-- Canonical lists with the same words are the same list. -/
theorem Canonical.ext (hws : Canonical ws) (hvs : Canonical vs)
    (h : ∀ k, wordAt ws k = wordAt vs k) : ws = vs := by
  have hlength : ws.length = vs.length :=
    Nat.le_antisymm (hws.length_le fun k hk => (h k).trans hk)
      (hvs.length_le fun k hk => (h k).symm.trans hk)
  apply List.ext_getElem hlength
  intro k hk hk'
  have := h k
  rwa [wordAt, wordAt, List.getElem?_eq_getElem hk, List.getElem?_eq_getElem hk'] at this

/-! ## Comparisons -/

private theorem all_zipWith_iff {f : UInt64 → UInt64 → UInt64} :
    (List.zipWith f ws vs).all (· == 0) = true ↔
      ∀ k, k < ws.length → k < vs.length → f (wordAt ws k) (wordAt vs k) = 0 := by
  induction ws generalizing vs with
  | nil => simp
  | cons w ws ih =>
    cases vs with
    | nil => simp
    | cons v vs =>
      rw [List.zipWith_cons_cons, List.all_cons, Bool.and_eq_true, beq_iff_eq, ih]
      constructor
      · intro h k hk hk'
        cases k with
        | zero => exact h.1
        | succ k => exact h.2 k (Nat.lt_of_succ_lt_succ hk) (Nat.lt_of_succ_lt_succ hk')
      · intro h
        exact ⟨h 0 (Nat.zero_lt_succ _) (Nat.zero_lt_succ _),
          fun k hk hk' => h (k + 1) (Nat.succ_lt_succ hk) (Nat.succ_lt_succ hk')⟩

theorem apart_iff : apart ws vs = true ↔ ∀ k, wordAt ws k &&& wordAt vs k = 0 := by
  rw [apart, all_zipWith_iff]
  refine ⟨fun h k => ?_, fun h k _ _ => h k⟩
  by_cases hws : k < ws.length
  · by_cases hvs : k < vs.length
    · exact h k hws hvs
    · rw [wordAt_of_length_le (Nat.le_of_not_lt hvs), UInt64.and_zero]
  · rw [wordAt_of_length_le (Nat.le_of_not_lt hws), UInt64.zero_and]

theorem within_iff (h : Canonical ws) :
    within ws vs = true ↔ ∀ k, wordAt ws k &&& ~~~wordAt vs k = 0 := by
  rw [within, Bool.and_eq_true, decide_eq_true_eq, all_zipWith_iff]
  constructor
  · rintro ⟨hlen, hall⟩ k
    by_cases hk : k < ws.length
    · exact hall k hk (Nat.lt_of_lt_of_le hk hlen)
    · rw [wordAt_of_length_le (Nat.le_of_not_lt hk), UInt64.zero_and]
  · intro hall
    refine ⟨h.length_le fun k hk => ?_, fun k _ _ => hall k⟩
    have := hall k
    rw [hk] at this
    simpa using this

end WordSet

end FedPlan
