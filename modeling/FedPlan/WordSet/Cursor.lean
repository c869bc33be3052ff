import FedPlan.WordSet.Basic

/-!
# Traversal of sets of positions

A cursor walks over the members of a set in ascending order. It holds the part of the current
word that is still ahead, the words behind it and the index of the current word.
-/

namespace FedPlan

namespace WordSet

structure Cursor where
  current : UInt64
  rest : List UInt64
  index : Nat

namespace Cursor

/-- The place of the lowest bit of a word that is not zero. -/
def firstBit (w : UInt64) : Nat := (w ^^^ (w &&& (w - 1))).log2.toNat

/-- Reads the lowest bit of a word and clears it. -/
def take (w : UInt64) (ws : List UInt64) (index : Nat) : Option Nat × Cursor :=
  (some (index * wordBits + firstBit w), ⟨w &&& (w - 1), ws, index⟩)

/-- Goes on to the next word that is not zero. Behind the last word there is none, but the index moves
on all the same. -/
def skip (index : Nat) : List UInt64 → Option Nat × Cursor
  | [] => (none, ⟨0, [], index + 1⟩)
  | w :: ws => if w = 0 then skip (index + 1) ws else take w ws (index + 1)

/-- The next member, if there is one, and the cursor behind it. Zero words are skipped. -/
def next (c : Cursor) : Option Nat × Cursor :=
  if c.current = 0 then skip c.index c.rest else take c.current c.rest c.index

def collect : Nat → Cursor → List Nat
  | 0, _ => []
  | steps + 1, c =>
    match c.next with
    | (some n, c) => n :: collect steps c
    | (none, _) => []

/-- The members ahead. There are no more of them than bits ahead. -/
def toList (c : Cursor) : List Nat := collect (wordBits * (c.rest.length + 1)) c

def ofWords : List UInt64 → Cursor
  | [] => ⟨0, [], 0⟩
  | w :: ws => ⟨w, ws, 0⟩

end Cursor

def cursor (s : WordSet) : Cursor := .ofWords s.words

/-- The members in ascending order. -/
def toList (s : WordSet) : List Nat := s.cursor.toList

def first? (s : WordSet) : Option Nat := s.cursor.next.1

def text (s : WordSet) : String :=
  "\x7b" ++ ", ".intercalate (s.toList.map toString) ++ "\x7d"

end WordSet

end FedPlan
