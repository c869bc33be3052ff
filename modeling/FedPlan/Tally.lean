/-!
# Tallies

A tally keeps a signed number for each value, so that values of two lists can be set off against each
other: those of one list are counted up and those of the other one down. It is balanced if nothing is
left of any value. A value has one entry at most, and without an entry its number is zero.
-/

namespace FedPlan

structure Tally (α : Type) where
  entries : List (α × Int)
  nodup : (entries.map Prod.fst).Nodup

namespace Tally

variable {α : Type}

def empty : Tally α := ⟨[], .nil⟩

def isBalanced (t : Tally α) : Bool := t.entries.all fun e => e.2 == 0

variable [DecidableEq α] {a b : α} {n : Int} {entries : List (α × Int)}

def numberIn (a : α) : List (α × Int) → Int
  | [] => 0
  | (b, m) :: entries => if b = a then m else numberIn a entries

def count (t : Tally α) (a : α) : Int := numberIn a t.entries

/-- The number of `a` is changed by `n`. If there is no entry for it yet, a new one is put at the end. -/
def addEntry (a : α) (n : Int) : List (α × Int) → List (α × Int)
  | [] => [(a, n)]
  | (b, m) :: entries =>
    if b = a then (b, m + n) :: entries else (b, m) :: addEntry a n entries

theorem mem_map_fst_addEntry :
    b ∈ (addEntry a n entries).map Prod.fst ↔ b = a ∨ b ∈ entries.map Prod.fst := by
  induction entries with
  | nil => simp [addEntry]
  | cons e entries ih =>
    obtain ⟨c, m⟩ := e
    rw [addEntry]
    split
    · next hc => simp [hc]
    · rw [List.map_cons, List.mem_cons, ih, List.map_cons, List.mem_cons]
      exact or_left_comm

theorem nodup_addEntry (a : α) (n : Int) (h : (entries.map Prod.fst).Nodup) :
    ((addEntry a n entries).map Prod.fst).Nodup := by
  induction entries with
  | nil => simp [addEntry]
  | cons e entries ih =>
    obtain ⟨c, m⟩ := e
    obtain ⟨hc, hrest⟩ := List.nodup_cons.1 h
    rw [addEntry]
    split
    · exact h
    · next hne =>
      refine List.nodup_cons.2 ⟨?_, ih hrest⟩
      rw [mem_map_fst_addEntry, not_or]
      exact ⟨hne, hc⟩

def add (t : Tally α) (a : α) (n : Int) : Tally α :=
  ⟨addEntry a n t.entries, nodup_addEntry a n t.nodup⟩

def addAll (t : Tally α) (as : List α) (n : Int) : Tally α := as.foldl (·.add · n) t

/-! ## Numbers -/

@[simp] theorem count_empty (a : α) : (empty : Tally α).count a = 0 := rfl

theorem numberIn_addEntry :
    numberIn b (addEntry a n entries) = numberIn b entries + if a = b then n else 0 := by
  induction entries with
  | nil => simp [addEntry, numberIn]
  | cons e entries ih =>
    obtain ⟨c, m⟩ := e
    rw [addEntry]
    split
    · next hc =>
      subst hc
      by_cases hb : c = b
      · simp [numberIn, hb]
      · simp [numberIn, hb]
    · next hne =>
      by_cases hb : c = b
      · have hab : a ≠ b := fun he => hne (hb.trans he.symm)
        simp [numberIn, hb, hab]
      · simp [numberIn, hb, ih]

theorem count_add (t : Tally α) (a b : α) (n : Int) :
    (t.add a n).count b = t.count b + if a = b then n else 0 :=
  numberIn_addEntry

theorem count_addAll (t : Tally α) (as : List α) (n : Int) (b : α) :
    (t.addAll as n).count b = t.count b + n * as.count b := by
  induction as generalizing t with
  | nil => simp [addAll]
  | cons a as ih =>
    have hcons : t.addAll (a :: as) n = (t.add a n).addAll as n := rfl
    rw [hcons, ih, count_add]
    by_cases hab : a = b
    · simp only [hab, if_true, List.count_cons_self, Int.natCast_add, Int.mul_add]
      omega
    · simp [hab]

theorem numberIn_of_forall (h : ∀ e ∈ entries, e.2 = 0) (a : α) : numberIn a entries = 0 := by
  induction entries with
  | nil => rfl
  | cons e entries ih =>
    obtain ⟨hzero, hrest⟩ := List.forall_mem_cons.1 h
    rw [numberIn, ih hrest]
    split
    · exact hzero
    · rfl

/-- The number of a value stands in its entry, because there is no second one. -/
theorem numberIn_of_mem (hnodup : (entries.map Prod.fst).Nodup) (h : (a, n) ∈ entries) :
    numberIn a entries = n := by
  induction entries with
  | nil => cases h
  | cons e entries ih =>
    obtain ⟨c, m⟩ := e
    obtain ⟨hc, hrest⟩ := List.nodup_cons.1 hnodup
    rcases List.mem_cons.1 h with he | h
    · cases he
      simp [numberIn]
    · have hmem : a ∈ entries.map Prod.fst := List.mem_map_of_mem h
      have hne : c ≠ a := by
        rintro rfl
        exact hc hmem
      rw [numberIn, if_neg hne, ih hrest h]

theorem isBalanced_iff (t : Tally α) : t.isBalanced = true ↔ ∀ a, t.count a = 0 := by
  simp only [isBalanced, List.all_eq_true, beq_iff_eq]
  constructor
  · exact fun h a => numberIn_of_forall h a
  · intro h e he
    rw [← numberIn_of_mem t.nodup he]
    exact h e.1

end Tally

end FedPlan
