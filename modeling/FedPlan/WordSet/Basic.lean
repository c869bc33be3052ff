import FedPlan.WordSet.Words

/-!
# Sets of positions

A finite set of natural numbers is a canonical list of words, so a set has one representation
whatever operations produced it. The operations work on the words and keep them canonical.
-/

namespace FedPlan

structure WordSet where
  words : List UInt64
  canonical : WordSet.Canonical words
deriving DecidableEq

namespace WordSet

theorem words_inj {s t : WordSet} : s.words = t.words ↔ s = t := by
  cases s
  cases t
  simp

instance : EmptyCollection WordSet := ⟨⟨[], canonical_nil⟩⟩

def isEmpty (s : WordSet) : Bool := s.words.isEmpty

def contains (s : WordSet) (n : Nat) : Bool := hasBit s.words n

instance : Membership Nat WordSet := ⟨fun s n => s.contains n = true⟩

instance (n : Nat) (s : WordSet) : Decidable (n ∈ s) :=
  inferInstanceAs (Decidable (s.contains n = true))

def insert (s : WordSet) (n : Nat) : WordSet :=
  ⟨setBit s.words n, canonical_orAt (bit_ne_zero n) _ s.canonical⟩

def erase (s : WordSet) (n : Nat) : WordSet :=
  ⟨clearBit s.words n, canonical_clearAt _ _ s.canonical⟩

/-- Inserts `n` and tells whether it was no member before. -/
def tryInsert (s : WordSet) (n : Nat) : Bool × WordSet := (!s.contains n, s.insert n)

/-- Erases `n` and tells whether it was a member before. -/
def tryErase (s : WordSet) (n : Nat) : Bool × WordSet := (s.contains n, s.erase n)

def insertAll (s : WordSet) (ns : List Nat) : WordSet := ns.foldl insert s

theorem words_insertAll (s : WordSet) (ns : List Nat) :
    (s.insertAll ns).words = ns.foldl setBit s.words := by
  induction ns generalizing s with
  | nil => rfl
  | cons n ns ih => exact ih (s.insert n)

def ofList (ns : List Nat) : WordSet := insertAll ∅ ns

def singleton (n : Nat) : WordSet := insert ∅ n

/-- The set `{0, …, n - 1}`. -/
def range (n : Nat) : WordSet := ⟨ones n, canonical_ones n⟩

instance : Union WordSet :=
  ⟨fun s t => ⟨orWords s.words t.words, canonical_orWords s.canonical t.canonical⟩⟩

instance : Inter WordSet := ⟨fun s t => ⟨andWords s.words t.words, canonical_trim _⟩⟩

instance : SDiff WordSet := ⟨fun s t => ⟨andNotWords s.words t.words, canonical_trim _⟩⟩

def isSubset (s t : WordSet) : Bool := within s.words t.words

def isDisjoint (s t : WordSet) : Bool := apart s.words t.words

/-- The number of members, counted word by word. -/
def size (s : WordSet) : Nat := countBits s.words

/-- Sets are compared by their words; the order has no other meaning. -/
instance : Ord WordSet := ⟨fun s t => compare s.words t.words⟩

end WordSet

end FedPlan
