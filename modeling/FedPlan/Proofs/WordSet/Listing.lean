import FedPlan.Proofs.WordSet.Counting

/-!
# Listing members

Calls of a cursor, one after another, answer with the members of the set in ascending order and then
find nothing any more, however often the cursor is called.
-/

namespace FedPlan

namespace WordSet

namespace Cursor

variable {c c' : Cursor} {n : Nat}

/-- The cursor after a number of calls. -/
def after (c : Cursor) : Nat → Cursor
  | 0 => c
  | k + 1 => c.next.2.after k

theorem toList_eq_nil (h : ∀ n, ¬c.Ahead n) : c.toList = [] := by
  apply List.eq_nil_iff_forall_not_mem.2
  simpa only [mem_toList] using h

theorem toList_of_yields (h : c.Yields n c') : c.toList = n :: c'.toList := by
  have hsorted : (n :: c'.toList).Pairwise (· < ·) := by
    refine List.pairwise_cons.2 ⟨fun m hm => ?_, c'.sorted_toList⟩
    obtain ⟨hahead, hne⟩ := (h.rest m).1 (mem_toList.1 hm)
    have hle := h.least m hahead
    omega
  apply eq_of_ascending c.sorted_toList hsorted
  intro m
  rw [List.mem_cons, mem_toList, mem_toList, h.rest]
  by_cases hm : m = n
  · simp [hm, h.ahead]
  · simp [hm]

theorem toList_next (c : Cursor) : c.next.2.toList = c.toList.tail := by
  rcases c.next_cases with ⟨c', he, hnone, hstays⟩ | ⟨n, c', he, hy⟩
  · rw [he, toList_eq_nil hnone, toList_eq_nil hstays, List.tail_nil]
  · rw [he, toList_of_yields hy, List.tail_cons]

theorem next_after (c : Cursor) (k : Nat) : (c.after k).next.1 = c.toList[k]? := by
  induction k generalizing c with
  | zero => rw [after, next_fst_eq_head?, List.head?_eq_getElem?]
  | succ k ih => rw [after, ih, toList_next, List.getElem?_tail]

end Cursor

/-- The cursor answers with the members in ascending order, in as many calls as there are members, and behind
them with nothing. -/
theorem cursor_lists_members (s : WordSet) :
    (∀ k, (s.cursor.after k).next.1 = s.toList[k]?) ∧
    (∀ k, (s.cursor.after k).next.1 = none ↔ s.size ≤ k) ∧
    s.toList.Pairwise (· < ·) ∧
    (∀ n, n ∈ s.toList ↔ s.contains n = true) ∧
    s.toList.length = s.size ∧
    s.toList.head? = s.first? := by
  have hcalls (k : Nat) : (s.cursor.after k).next.1 = s.toList[k]? := s.cursor.next_after k
  refine ⟨hcalls, fun k => ?_, s.sorted_toList, fun n => mem_toList, s.size_eq_length.symm,
    s.first?_eq_head?.symm⟩
  rw [hcalls, List.getElem?_eq_none_iff, size_eq_length]

/-- The words at the indices 1 and 2 are zero. Behind the last member the cursor is asked twice. -/
example : (List.range 5).map (fun k => ((ofList [3, 200, 63]).cursor.after k).next.1) =
    [some 3, some 63, some 200, none, none] := by decide +kernel

end WordSet

end FedPlan
