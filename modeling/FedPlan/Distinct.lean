/-!
# First appearances

Queries, fragments and join graphs keep each value once, at the place where it first appears.
`List.eraseDups` does this; here it is shown that its result has no repetition, that a list without
repetition is left as it is, what one more value changes, and that it is the same to erase repetitions
within parts of a list first.
-/

namespace FedPlan

theorem nodup_eraseDups {α : Type u} [BEq α] [LawfulBEq α] (xs : List α) : xs.eraseDups.Nodup := by
  match xs with
  | [] => simp
  | x :: rest =>
    have : (rest.filter fun y => !y == x).length < rest.length + 1 :=
      Nat.lt_succ_of_le (List.length_filter_le ..)
    rw [List.eraseDups_cons, List.nodup_cons]
    exact ⟨by simp, nodup_eraseDups _⟩
termination_by xs.length

theorem eraseDups_of_nodup {α : Type u} [BEq α] [LawfulBEq α] {xs : List α} (h : xs.Nodup) :
    xs.eraseDups = xs := by
  induction xs with
  | nil => rfl
  | cons x xs ih =>
    obtain ⟨hx, hxs⟩ := List.nodup_cons.1 h
    have hfilter : xs.filter (fun y => !y == x) = xs := by
      apply List.filter_eq_self.2
      intro y hy
      have hne : y ≠ x := fun he => hx (he ▸ hy)
      simp [hne]
    rw [List.eraseDups_cons, hfilter, ih hxs]

theorem eraseDups_filter {α : Type u} [BEq α] [LawfulBEq α] (p : α → Bool) (xs : List α) :
    (xs.filter p).eraseDups = xs.eraseDups.filter p := by
  match xs with
  | [] => simp
  | x :: rest =>
    have : (rest.filter fun y => !y == x).length < rest.length + 1 :=
      Nat.lt_succ_of_le (List.length_filter_le ..)
    have ih := eraseDups_filter p (rest.filter fun y => !y == x)
    rw [List.filter_filter] at ih
    by_cases hx : p x = true
    · rw [List.filter_cons_of_pos hx, List.eraseDups_cons, List.eraseDups_cons,
        List.filter_cons_of_pos hx, ← ih, List.filter_filter]
      simp only [Bool.and_comm]
    · have hrest : rest.filter (fun y => p y && !y == x) = rest.filter p := by
        apply List.filter_congr
        intro y _
        by_cases hy : y = x
        · simp [hy, hx]
        · simp [hy]
      rw [List.filter_cons_of_neg hx, List.eraseDups_cons, List.filter_cons_of_neg hx, ← ih, hrest]
termination_by xs.length

/-- One more value is put at the end unless it is there already. -/
theorem eraseDups_concat {α : Type u} [DecidableEq α] (xs : List α) (x : α) :
    (xs ++ [x]).eraseDups = if x ∈ xs then xs.eraseDups else xs.eraseDups ++ [x] := by
  rw [List.eraseDups_append]
  split
  · next hx => simp [hx, List.removeAll]
  · next hx => simp [hx, List.removeAll, List.eraseDups_cons]

theorem eraseDups_append_eraseDups {α : Type u} [BEq α] [LawfulBEq α] (xs ys : List α) :
    (xs.eraseDups ++ ys.eraseDups).eraseDups = (xs ++ ys).eraseDups := by
  have hnodup : (ys.eraseDups.removeAll xs.eraseDups).Nodup := (nodup_eraseDups ys).filter _
  rw [List.eraseDups_append, List.eraseDups_append, eraseDups_of_nodup (nodup_eraseDups xs),
    eraseDups_of_nodup hnodup, List.removeAll, List.removeAll, eraseDups_filter]
  simp [List.mem_eraseDups]

end FedPlan
