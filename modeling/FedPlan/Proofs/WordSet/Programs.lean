import FedPlan.Proofs.WordSet.Counting
import Mathlib.Data.Finset.Sort

/-!
# Programs over sets

A program keeps sets in registers: it builds new ones, changes them and asks about them. The same
program can be run on lists of words, on sets of positions and on the finite sets of mathematics. Runs
whose operations correspond give the same answers, so that no program can tell the words from the sets
they stand for.
-/

namespace FedPlan

/-- The operations on sets that are kept as values of a type. -/
structure SetOps (σ : Type) where
  empty : σ
  range : Nat → σ
  singleton : Nat → σ
  ofList : List Nat → σ
  union : σ → σ → σ
  inter : σ → σ → σ
  sdiff : σ → σ → σ
  insertAll : σ → List Nat → σ
  tryInsert : σ → Nat → Bool × σ
  tryErase : σ → Nat → Bool × σ
  contains : σ → Nat → Bool
  isEmpty : σ → Bool
  size : σ → Nat
  first? : σ → Option Nat
  toList : σ → List Nat
  isSubset : σ → σ → Bool
  isDisjoint : σ → σ → Bool
  isEqual : σ → σ → Bool

namespace SetOps

/-- What the operations do to the stored words. -/
def onWords : SetOps (List UInt64) where
  empty := []
  range := WordSet.ones
  singleton := WordSet.setBit []
  ofList := List.foldl WordSet.setBit []
  union := WordSet.orWords
  inter := WordSet.andWords
  sdiff := WordSet.andNotWords
  insertAll := List.foldl WordSet.setBit
  tryInsert ws n := (!WordSet.hasBit ws n, WordSet.setBit ws n)
  tryErase ws n := (WordSet.hasBit ws n, WordSet.clearBit ws n)
  contains := WordSet.hasBit
  isEmpty := List.isEmpty
  size := WordSet.countBits
  first? ws := (WordSet.Cursor.ofWords ws).next.1
  toList ws := (WordSet.Cursor.ofWords ws).toList
  isSubset := WordSet.within
  isDisjoint := WordSet.apart
  isEqual ws vs := decide (ws = vs)

def onSets : SetOps WordSet where
  empty := ∅
  range := WordSet.range
  singleton := WordSet.singleton
  ofList := WordSet.ofList
  union := (· ∪ ·)
  inter := (· ∩ ·)
  sdiff := (· \ ·)
  insertAll := WordSet.insertAll
  tryInsert := WordSet.tryInsert
  tryErase := WordSet.tryErase
  contains := WordSet.contains
  isEmpty := WordSet.isEmpty
  size := WordSet.size
  first? := WordSet.first?
  toList := WordSet.toList
  isSubset := WordSet.isSubset
  isDisjoint := WordSet.isDisjoint
  isEqual s t := decide (s = t)

/-- The sets themselves: each operation is the one that it is named for. -/
def onFinsets : SetOps (Finset Nat) where
  empty := ∅
  range := Finset.range
  singleton n := {n}
  ofList := List.toFinset
  union := (· ∪ ·)
  inter := (· ∩ ·)
  sdiff := (· \ ·)
  insertAll s ns := s ∪ ns.toFinset
  tryInsert s n := (decide (n ∉ s), insert n s)
  tryErase s n := (decide (n ∈ s), s.erase n)
  contains s n := decide (n ∈ s)
  isEmpty s := decide (s = ∅)
  size := Finset.card
  first? s := if h : s.Nonempty then some (s.min' h) else none
  toList s := s.sort
  isSubset s t := decide (s ⊆ t)
  isDisjoint s t := decide (Disjoint s t)
  isEqual s t := decide (s = t)

end SetOps

/-! ## Programs -/

/-- A new set. Other sets are given by their registers. -/
inductive SetExpr where
  | empty
  | range (n : Nat)
  | singleton (n : Nat)
  | ofList (ns : List Nat)
  | copy (r : Nat)
  | union (r r' : Nat)
  | inter (r r' : Nat)
  | sdiff (r r' : Nat)

/-- A question about the sets in registers, which stay as they are. -/
inductive SetQuestion where
  | contains (r n : Nat)
  | isEmpty (r : Nat)
  | size (r : Nat)
  | first (r : Nat)
  | members (r : Nat)
  | isSubset (r r' : Nat)
  | isDisjoint (r r' : Nat)
  | isEqual (r r' : Nat)

inductive SetStep where
  | store (r : Nat) (e : SetExpr)
  | insertAll (r : Nat) (ns : List Nat)
  | insert (r n : Nat)
  | erase (r n : Nat)
  | ask (q : SetQuestion)

inductive SetAnswer where
  | flag (b : Bool)
  | number (n : Nat)
  | position (n : Option Nat)
  | positions (ns : List Nat)
deriving DecidableEq

/-- The sets in the registers and the answers so far, the last one in front. -/
structure SetRun (σ : Type) where
  sets : Nat → σ
  answers : List SetAnswer

/-- The registers hold values that correspond to each other, and the answers are the same. -/
structure SetRun.Corresponds {σ τ : Type} (R : σ → τ → Prop) (x : SetRun σ) (y : SetRun τ) : Prop where
  sets : ∀ r, R (x.sets r) (y.sets r)
  answers : x.answers = y.answers

namespace SetOps

variable {σ τ : Type}

def value (ops : SetOps σ) (sets : Nat → σ) : SetExpr → σ
  | .empty => ops.empty
  | .range n => ops.range n
  | .singleton n => ops.singleton n
  | .ofList ns => ops.ofList ns
  | .copy r => sets r
  | .union r r' => ops.union (sets r) (sets r')
  | .inter r r' => ops.inter (sets r) (sets r')
  | .sdiff r r' => ops.sdiff (sets r) (sets r')

def answer (ops : SetOps σ) (sets : Nat → σ) : SetQuestion → SetAnswer
  | .contains r n => .flag (ops.contains (sets r) n)
  | .isEmpty r => .flag (ops.isEmpty (sets r))
  | .size r => .number (ops.size (sets r))
  | .first r => .position (ops.first? (sets r))
  | .members r => .positions (ops.toList (sets r))
  | .isSubset r r' => .flag (ops.isSubset (sets r) (sets r'))
  | .isDisjoint r r' => .flag (ops.isDisjoint (sets r) (sets r'))
  | .isEqual r r' => .flag (ops.isEqual (sets r) (sets r'))

def step (ops : SetOps σ) (run : SetRun σ) : SetStep → SetRun σ
  | .store r e => { run with sets := Function.update run.sets r (ops.value run.sets e) }
  | .insertAll r ns => { run with sets := Function.update run.sets r (ops.insertAll (run.sets r) ns) }
  | .insert r n =>
    let (isNew, s) := ops.tryInsert (run.sets r) n
    ⟨Function.update run.sets r s, .flag isNew :: run.answers⟩
  | .erase r n =>
    let (wasMember, s) := ops.tryErase (run.sets r) n
    ⟨Function.update run.sets r s, .flag wasMember :: run.answers⟩
  | .ask q => { run with answers := ops.answer run.sets q :: run.answers }

/-- All registers are empty at first. -/
def run (ops : SetOps σ) (program : List SetStep) : SetRun σ :=
  program.foldl ops.step ⟨fun _ => ops.empty, []⟩

/-! ## Corresponding operations -/

/-- The operations on values of one type do the same as those on values of another type, as far as the
relation between these values tells, and give the same answers. -/
structure Simulates (a : SetOps σ) (b : SetOps τ) (R : σ → τ → Prop) : Prop where
  empty : R a.empty b.empty
  range : ∀ n, R (a.range n) (b.range n)
  singleton : ∀ n, R (a.singleton n) (b.singleton n)
  ofList : ∀ ns, R (a.ofList ns) (b.ofList ns)
  union : ∀ {s s' t t'}, R s t → R s' t' → R (a.union s s') (b.union t t')
  inter : ∀ {s s' t t'}, R s t → R s' t' → R (a.inter s s') (b.inter t t')
  sdiff : ∀ {s s' t t'}, R s t → R s' t' → R (a.sdiff s s') (b.sdiff t t')
  insertAll : ∀ {s t} ns, R s t → R (a.insertAll s ns) (b.insertAll t ns)
  tryInsert : ∀ {s t} n, R s t → (a.tryInsert s n).1 = (b.tryInsert t n).1 ∧
    R (a.tryInsert s n).2 (b.tryInsert t n).2
  tryErase : ∀ {s t} n, R s t → (a.tryErase s n).1 = (b.tryErase t n).1 ∧
    R (a.tryErase s n).2 (b.tryErase t n).2
  contains : ∀ {s t} n, R s t → a.contains s n = b.contains t n
  isEmpty : ∀ {s t}, R s t → a.isEmpty s = b.isEmpty t
  size : ∀ {s t}, R s t → a.size s = b.size t
  first? : ∀ {s t}, R s t → a.first? s = b.first? t
  toList : ∀ {s t}, R s t → a.toList s = b.toList t
  isSubset : ∀ {s s' t t'}, R s t → R s' t' → a.isSubset s s' = b.isSubset t t'
  isDisjoint : ∀ {s s' t t'}, R s t → R s' t' → a.isDisjoint s s' = b.isDisjoint t t'
  isEqual : ∀ {s s' t t'}, R s t → R s' t' → a.isEqual s s' = b.isEqual t t'

namespace Simulates

variable {a : SetOps σ} {b : SetOps τ} {R : σ → τ → Prop} {x : SetRun σ} {y : SetRun τ}

theorem value (h : a.Simulates b R) {sets : Nat → σ} {sets' : Nat → τ}
    (hsets : ∀ r, R (sets r) (sets' r)) (e : SetExpr) : R (a.value sets e) (b.value sets' e) := by
  cases e with
  | empty => exact h.empty
  | range n => exact h.range n
  | singleton n => exact h.singleton n
  | ofList ns => exact h.ofList ns
  | copy r => exact hsets r
  | union r r' => exact h.union (hsets r) (hsets r')
  | inter r r' => exact h.inter (hsets r) (hsets r')
  | sdiff r r' => exact h.sdiff (hsets r) (hsets r')

theorem answer (h : a.Simulates b R) {sets : Nat → σ} {sets' : Nat → τ}
    (hsets : ∀ r, R (sets r) (sets' r)) (q : SetQuestion) : a.answer sets q = b.answer sets' q := by
  cases q with
  | contains r n => exact congrArg SetAnswer.flag (h.contains n (hsets r))
  | isEmpty r => exact congrArg SetAnswer.flag (h.isEmpty (hsets r))
  | size r => exact congrArg SetAnswer.number (h.size (hsets r))
  | first r => exact congrArg SetAnswer.position (h.first? (hsets r))
  | members r => exact congrArg SetAnswer.positions (h.toList (hsets r))
  | isSubset r r' => exact congrArg SetAnswer.flag (h.isSubset (hsets r) (hsets r'))
  | isDisjoint r r' => exact congrArg SetAnswer.flag (h.isDisjoint (hsets r) (hsets r'))
  | isEqual r r' => exact congrArg SetAnswer.flag (h.isEqual (hsets r) (hsets r'))

private theorem update {sets : Nat → σ} {sets' : Nat → τ} (hsets : ∀ r, R (sets r) (sets' r))
    {s : σ} {t : τ} (hst : R s t) (r i : Nat) :
    R (Function.update sets r s i) (Function.update sets' r t i) := by
  by_cases hi : i = r
  · subst hi
    simpa using hst
  · simpa [hi] using hsets i

theorem step (h : a.Simulates b R) (hxy : x.Corresponds R y) (c : SetStep) :
    (a.step x c).Corresponds R (b.step y c) := by
  cases c with
  | store r e => exact ⟨update hxy.sets (h.value hxy.sets e) r, hxy.answers⟩
  | insertAll r ns => exact ⟨update hxy.sets (h.insertAll ns (hxy.sets r)) r, hxy.answers⟩
  | insert r n =>
    obtain ⟨hflag, hset⟩ := h.tryInsert n (hxy.sets r)
    refine ⟨update hxy.sets hset r, ?_⟩
    simp only [SetOps.step, hflag, hxy.answers]
  | erase r n =>
    obtain ⟨hflag, hset⟩ := h.tryErase n (hxy.sets r)
    refine ⟨update hxy.sets hset r, ?_⟩
    simp only [SetOps.step, hflag, hxy.answers]
  | ask q =>
    refine ⟨hxy.sets, ?_⟩
    simp only [SetOps.step, h.answer hxy.sets q, hxy.answers]

theorem steps (h : a.Simulates b R) (hxy : x.Corresponds R y) (program : List SetStep) :
    (program.foldl a.step x).Corresponds R (program.foldl b.step y) := by
  induction program generalizing x y with
  | nil => exact hxy
  | cons c program ih => exact ih (h.step hxy c)

theorem run (h : a.Simulates b R) (program : List SetStep) :
    (a.run program).Corresponds R (b.run program) :=
  h.steps ⟨fun _ => h.empty, rfl⟩ program

end Simulates

/-! ## Words, sets of positions and finite sets -/

/-- The operations on sets of positions store what those on words compute. -/
theorem onWords_simulates : onWords.Simulates onSets fun ws s => ws = s.words where
  empty := rfl
  range _ := rfl
  singleton _ := rfl
  ofList ns := (WordSet.words_insertAll ∅ ns).symm
  union h h' := by cases h; cases h'; rfl
  inter h h' := by cases h; cases h'; rfl
  sdiff h h' := by cases h; cases h'; rfl
  insertAll ns h := by cases h; exact (WordSet.words_insertAll _ ns).symm
  tryInsert n h := by cases h; exact ⟨rfl, rfl⟩
  tryErase n h := by cases h; exact ⟨rfl, rfl⟩
  contains n h := by cases h; rfl
  isEmpty h := by cases h; rfl
  size h := by cases h; rfl
  first? h := by cases h; rfl
  toList h := by cases h; rfl
  isSubset h h' := by cases h; cases h'; rfl
  isDisjoint h h' := by cases h; cases h'; rfl
  isEqual h h' := by
    cases h
    cases h'
    exact decide_eq_decide.2 WordSet.words_inj

variable {s s' : WordSet} {t t' : Finset Nat}

private theorem contains_eq_decide (h : ∀ n, n ∈ s ↔ n ∈ t) (n : Nat) :
    s.contains n = decide (n ∈ t) := by
  rw [Bool.eq_iff_iff, decide_eq_true_eq]
  exact h n

private theorem eq_iff_eq (h : ∀ n, n ∈ s ↔ n ∈ t) (h' : ∀ n, n ∈ s' ↔ n ∈ t') :
    s = s' ↔ t = t' := by
  rw [Finset.ext_iff]
  simp only [← h, ← h']
  exact ⟨fun he n => by rw [he], WordSet.ext⟩

private theorem toList_eq_sort (h : ∀ n, n ∈ s ↔ n ∈ t) : s.toList = t.sort := by
  apply WordSet.eq_of_ascending s.sorted_toList t.sortedLT_sort.pairwise
  simpa using h

private theorem first?_eq_min' (h : ∀ n, n ∈ s ↔ n ∈ t) :
    s.first? = if ht : t.Nonempty then some (t.min' ht) else none := by
  rw [WordSet.first?_eq_head?, toList_eq_sort h]
  split
  · rw [Finset.min'_eq_sorted_zero, List.head?_eq_getElem?, List.getElem?_eq_getElem]
  · next ht => simp [Finset.not_nonempty_iff_eq_empty.1 ht]

theorem onSets_simulates : onSets.Simulates onFinsets fun s t => ∀ n, n ∈ s ↔ n ∈ t where
  empty := by simp [onSets, onFinsets]
  range n := by simp [onSets, onFinsets]
  singleton n := by simp [onSets, onFinsets]
  ofList ns := by simp [onSets, onFinsets]
  union h h' := by simp [onSets, onFinsets, h, h']
  inter h h' := by simp [onSets, onFinsets, h, h']
  sdiff h h' := by simp [onSets, onFinsets, h, h']
  insertAll ns h := by simp [onSets, onFinsets, h]
  tryInsert n h := by
    constructor
    · simp [onSets, onFinsets, WordSet.tryInsert, contains_eq_decide h]
    · simp [onSets, onFinsets, WordSet.tryInsert, h]
  tryErase n h := by
    constructor
    · simp [onSets, onFinsets, WordSet.tryErase, contains_eq_decide h]
    · simp [onSets, onFinsets, WordSet.tryErase, h]
  contains n h := contains_eq_decide h n
  isEmpty h := by
    rw [Bool.eq_iff_iff]
    simp [onSets, onFinsets, WordSet.isEmpty_iff_forall, Finset.eq_empty_iff_forall_notMem, h]
  size h := by
    simp [onSets, onFinsets, WordSet.size_eq_length, toList_eq_sort h]
  first? h := first?_eq_min' h
  toList h := toList_eq_sort h
  isSubset h h' := by
    rw [Bool.eq_iff_iff]
    simp [onSets, onFinsets, WordSet.isSubset_iff, Finset.subset_iff, h, h']
  isDisjoint h h' := by
    rw [Bool.eq_iff_iff]
    simp [onSets, onFinsets, WordSet.isDisjoint_iff, Finset.disjoint_left, h, h']
  isEqual h h' := decide_eq_decide.2 (eq_iff_eq h h')

/-- No program can tell the stored words from the sets that they stand for. Two sets are equal if and only if
they have the same members, whichever programs have produced them. -/
theorem program_agrees (program : List SetStep) :
    (onWords.run program).answers = (onFinsets.run program).answers ∧
    (∀ r, ((onWords.run program).sets r).getLast? ≠ some 0 ∧
      ∀ n, WordSet.hasBit ((onWords.run program).sets r) n = true ↔
        n ∈ (onFinsets.run program).sets r) ∧
    (onWords.run program).answers = (onSets.run program).answers ∧
    (∀ r, (onWords.run program).sets r = ((onSets.run program).sets r).words) ∧
    ∀ other r r', (onSets.run program).sets r = (onSets.run other).sets r' ↔
      (onFinsets.run program).sets r = (onFinsets.run other).sets r' := by
  have hwords := onWords_simulates.run program
  have hsets := onSets_simulates.run program
  refine ⟨hwords.answers.trans hsets.answers, fun r => ?_, hwords.answers, hwords.sets,
    fun other r r' => ?_⟩
  · rw [hwords.sets r]
    exact ⟨((onSets.run program).sets r).canonical, hsets.sets r⟩
  · exact eq_iff_eq (hsets.sets r) ((onSets_simulates.run other).sets r')

/-- Erasing the last member, which stands alone in the third word, leaves the words of the other set. -/
example :
    (onWords.run
      [.insert 0 130, .insert 0 1, .erase 0 130, .store 1 (.singleton 1), .ask (.isEqual 0 1)]).answers =
    [.flag true, .flag true, .flag true, .flag true] := by decide +kernel

end SetOps

end FedPlan
