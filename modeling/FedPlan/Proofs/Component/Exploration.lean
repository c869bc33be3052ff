import FedPlan.Component.Search
import FedPlan.Proofs.Graph.Chains
import Mathlib.Data.List.Sublists

/-!
# Exhaustive exploration

The search visits exactly the sets that grow out of the seeds, each of them once, and it comes to an
end: a step takes a set from the stack, and only sets that were never put there are added. What the
grown sets are does not matter here.
-/

namespace FedPlan

/-! ## Visited sets -/

instance : Std.TransOrd WordSet :=
  inferInstanceAs (Std.TransCmp (compareOn WordSet.words))

instance : Std.LawfulEqOrd WordSet where
  eq_of_compare := by
    intro s t h
    have hwords : s.words = t.words := Std.LawfulEqOrd.eq_of_compare h
    exact WordSet.words_inj.1 hwords

/-- A set that grows out of a seed. -/
inductive Matching.Reached (m : Matching) : WordSet → Prop
  | seed {t : WordSet} (h : t ∈ m.seeds) : m.Reached t
  | grow {t u : WordSet} {next : List WordSet} (ht : m.Reached t) (hgrow : m.grow? t = some next)
      (hu : u ∈ next) : m.Reached u

namespace ComponentSearch

variable {m : Matching} {s : ComponentSearch} {t u : WordSet} {rest : List WordSet}

theorem push_of_mem (h : t ∈ s.visited) : s.push t = s :=
  if_pos (Std.TreeSet.mem_iff_contains.1 h)

theorem push_of_not_mem (h : t ∉ s.visited) :
    s.push t = { s with stack := t :: s.stack, visited := s.visited.insert t } :=
  if_neg fun hmem => h (Std.TreeSet.mem_iff_contains.2 hmem)

theorem mem_visited_push : u ∈ (s.push t).visited ↔ u = t ∨ u ∈ s.visited := by
  by_cases h : t ∈ s.visited
  · rw [push_of_mem h]
    constructor
    · exact Or.inr
    · intro hu
      rcases hu with rfl | hu
      · exact h
      · exact hu
  · rw [push_of_not_mem h, Std.TreeSet.mem_insert, Std.compare_eq_iff_eq, eq_comm]

/-- What holds throughout the search. Of the sets that were visited, those that are neither on the
stack nor `busy` have been dealt with: they have been found, or their successors are visited. -/
structure Exploring (m : Matching) (busy : WordSet → Prop) (s : ComponentSearch) : Prop where
  reached : ∀ t ∈ s.visited, m.Reached t
  stack_visited : ∀ t ∈ s.stack, t ∈ s.visited
  stack_nodup : s.stack.Nodup
  found_visited : ∀ t ∈ s.found, t ∈ s.visited
  found_final : ∀ t ∈ s.found, m.grow? t = none
  found_nodup : s.found.Nodup
  not_waiting : ∀ t ∈ s.found, t ∉ s.stack
  final_found : ∀ t ∈ s.visited, t ∉ s.stack → ¬busy t → m.grow? t = none → t ∈ s.found
  closed : ∀ t ∈ s.visited, t ∉ s.stack → ¬busy t → ∀ next, m.grow? t = some next →
    ∀ u ∈ next, u ∈ s.visited

theorem exploring_init (m : Matching) : Exploring m (fun _ => False) {} where
  reached := by simp
  stack_visited := by simp
  stack_nodup := .nil
  found_visited := by simp
  found_final := by simp
  found_nodup := .nil
  not_waiting := by simp
  final_found := by simp
  closed := by simp

namespace Exploring

variable {busy : WordSet → Prop}

theorem push (h : Exploring m busy s) (ht : m.Reached t) : Exploring m busy (s.push t) := by
  by_cases hnew : t ∈ s.visited
  · rwa [push_of_mem hnew]
  · have hvisited : ∀ u ∈ s.visited, u ∈ (s.push t).visited :=
      fun u hu => mem_visited_push.2 (.inr hu)
    have hold : ∀ u ∈ (s.push t).visited, u ∉ t :: s.stack → u ∈ s.visited ∧ u ∉ s.stack := by
      intro u hu hnot
      obtain ⟨hne, hnot⟩ := not_or.1 (mt List.mem_cons.2 hnot)
      exact ⟨(mem_visited_push.1 hu).resolve_left hne, hnot⟩
    have hreached : ∀ u ∈ (s.push t).visited, m.Reached u := by
      intro u hu
      rcases mem_visited_push.1 hu with rfl | hu
      · exact ht
      · exact h.reached u hu
    have htop : t ∈ (s.push t).visited := mem_visited_push.2 (.inl rfl)
    rw [push_of_not_mem hnew] at hvisited hold hreached htop ⊢
    refine ⟨hreached, ?_, List.nodup_cons.2 ⟨mt (h.stack_visited t) hnew, h.stack_nodup⟩,
      fun u hu => hvisited u (h.found_visited u hu), h.found_final, h.found_nodup, ?_, ?_, ?_⟩
    · intro u hu
      rcases List.mem_cons.1 hu with rfl | hu
      · exact htop
      · exact hvisited u (h.stack_visited u hu)
    · intro u hu hmem
      rcases List.mem_cons.1 hmem with rfl | hmem
      · exact hnew (h.found_visited u hu)
      · exact h.not_waiting u hu hmem
    · intro u hu hnot
      obtain ⟨hu, hnot⟩ := hold u hu hnot
      exact h.final_found u hu hnot
    · intro u hu hnot hbusy next hnext v hv
      obtain ⟨hu, hnot⟩ := hold u hu hnot
      exact hvisited v (h.closed u hu hnot hbusy next hnext v hv)

theorem pushAll {next : List WordSet} (h : Exploring m busy s) (hnext : ∀ u ∈ next, m.Reached u) :
    Exploring m busy (next.foldl ComponentSearch.push s) := by
  induction next generalizing s with
  | nil => exact h
  | cons u next ih =>
    exact ih (h.push (hnext u List.mem_cons_self)) fun v hv => hnext v (List.mem_cons_of_mem u hv)

theorem pop (h : Exploring m (fun _ => False) s) (hstack : s.stack = t :: rest) :
    Exploring m (· = t) { s with stack := rest } := by
  have hnodup : (t :: rest).Nodup := hstack ▸ h.stack_nodup
  have hsub : ∀ u ∈ rest, u ∈ s.stack := fun u hu => hstack ▸ List.mem_cons_of_mem t hu
  have hout : ∀ u, u ∉ rest → ¬u = t → u ∉ s.stack := by
    intro u hu hne hmem
    rw [hstack] at hmem
    rcases List.mem_cons.1 hmem with rfl | hmem
    · exact hne rfl
    · exact hu hmem
  refine ⟨h.reached, fun u hu => h.stack_visited u (hsub u hu), (List.nodup_cons.1 hnodup).2,
    h.found_visited, h.found_final, h.found_nodup, fun u hu hmem => h.not_waiting u hu (hsub u hmem),
    ?_, ?_⟩
  · intro u hu hnot hne
    exact h.final_found u hu (hout u hnot hne) not_false
  · intro u hu hnot hne
    exact h.closed u hu (hout u hnot hne) not_false

end Exploring

theorem mem_visited_pushAll {next : List WordSet} :
    u ∈ (next.foldl push s).visited ↔ u ∈ next ∨ u ∈ s.visited := by
  induction next generalizing s with
  | nil => simp
  | cons t next ih =>
    rw [List.foldl_cons, ih, mem_visited_push, List.mem_cons, or_left_comm, or_assoc]

namespace Exploring

theorem record (h : Exploring m (· = t) s) (ht : t ∈ s.visited) (hstack : t ∉ s.stack)
    (hnew : t ∉ s.found) (hfinal : m.grow? t = none) :
    Exploring m (fun _ => False) { s with found := s.found ++ [t] } where
  reached := h.reached
  stack_visited := h.stack_visited
  stack_nodup := h.stack_nodup
  found_visited := by
    intro u hu
    rcases List.mem_append.1 hu with hu | hu
    · exact h.found_visited u hu
    · rw [List.mem_singleton.1 hu]
      exact ht
  found_final := by
    intro u hu
    rcases List.mem_append.1 hu with hu | hu
    · exact h.found_final u hu
    · rw [List.mem_singleton.1 hu]
      exact hfinal
  found_nodup := by
    refine List.nodup_append.2 ⟨h.found_nodup, List.nodup_singleton t, ?_⟩
    intro a ha b hb hab
    rw [List.mem_singleton.1 hb] at hab
    exact hnew (hab ▸ ha)
  not_waiting := by
    intro u hu
    rcases List.mem_append.1 hu with hu | hu
    · exact h.not_waiting u hu
    · rw [List.mem_singleton.1 hu]
      exact hstack
  final_found := by
    intro u hu hnot _ hgrow
    by_cases hut : u = t
    · exact List.mem_append_right _ (List.mem_singleton.2 hut)
    · exact List.mem_append_left _ (h.final_found u hu hnot hut hgrow)
  closed := by
    intro u hu hnot _ next hgrow
    by_cases hut : u = t
    · rw [hut, hfinal] at hgrow
      cases hgrow
    · exact h.closed u hu hnot hut next hgrow

theorem expand {next : List WordSet} (h : Exploring m (· = t) s) (hgrow : m.grow? t = some next)
    (hnext : ∀ u ∈ next, u ∈ s.visited) : Exploring m (fun _ => False) s :=
  { h with
    final_found := by
      intro u hu hnot _ hfinal
      by_cases hut : u = t
      · rw [hut, hgrow] at hfinal
        cases hfinal
      · exact h.final_found u hu hnot hut hfinal
    closed := by
      intro u hu hnot _ next' hgrow' v hv
      by_cases hut : u = t
      · rw [hut, hgrow] at hgrow'
        cases hgrow'
        exact hnext v hv
      · exact h.closed u hu hnot hut next' hgrow' v hv }

theorem step (h : Exploring m (fun _ => False) s) : Exploring m (fun _ => False) (s.step m) := by
  rw [ComponentSearch.step]
  split
  · exact h
  · next t rest hstack =>
    have ht : t ∈ s.stack := hstack ▸ List.mem_cons_self
    have hnodup : (t :: rest).Nodup := hstack ▸ h.stack_nodup
    have hvisited : t ∈ s.visited := h.stack_visited t ht
    have hpop := h.pop hstack
    split
    · next hfinal =>
      have hnew : t ∉ s.found := fun hmem => h.not_waiting t hmem ht
      exact hpop.record hvisited (List.nodup_cons.1 hnodup).1 hnew hfinal
    · next next hgrow =>
      have hreached : ∀ u ∈ next, m.Reached u := fun u hu => .grow (h.reached t hvisited) hgrow hu
      exact (hpop.pushAll hreached).expand hgrow fun u hu => mem_visited_pushAll.2 (.inl hu)

end Exploring

theorem visited_step (hu : u ∈ s.visited) : u ∈ (s.step m).visited := by
  rw [step]
  split
  · exact hu
  · split
    · exact hu
    · exact mem_visited_pushAll.2 (.inr hu)

/-! ## The end of the search -/

/-- All sets of positions below a bound. -/
def subsets (n : Nat) : List WordSet := (List.range n).sublists.map WordSet.ofList

theorem length_subsets (n : Nat) : (subsets n).length = Nat.pow 2 n := by
  rw [subsets, List.length_map, List.length_sublists, List.length_range]
  rfl

theorem mem_subsets {n : Nat} (h : ∀ i ∈ t, i < n) : t ∈ subsets n := by
  refine List.mem_map.2 ⟨(List.range n).filter (· ∈ t), ?_, ?_⟩
  · exact List.mem_sublists.2 List.filter_sublist
  · apply WordSet.ext
    intro i
    simp only [WordSet.mem_ofList, List.mem_filter, List.mem_range, decide_eq_true_eq]
    exact ⟨And.right, fun hi => ⟨h i hi, hi⟩⟩

/-- The steps that are left at most: one for each set on the stack and one for each set that was
never put there. -/
def weight (m : Matching) (s : ComponentSearch) : Nat :=
  s.stack.length + ((subsets m.graph.size).filter (· ∉ s.visited)).length

theorem weight_push_le (ht : m.graph.Holds t) : (s.push t).weight m ≤ s.weight m := by
  by_cases h : t ∈ s.visited
  · rw [push_of_mem h]
  · have hfilter : (subsets m.graph.size).filter (· ∉ (s.push t).visited) =
        ((subsets m.graph.size).filter (· ∉ s.visited)).filter (· ≠ t) := by
      rw [List.filter_filter]
      apply List.filter_congr
      intro u _
      simp [mem_visited_push]
    have hlt : ((subsets m.graph.size).filter (· ∉ (s.push t).visited)).length <
        ((subsets m.graph.size).filter (· ∉ s.visited)).length := by
      rw [hfilter]
      apply List.length_filter_lt_length_iff_exists.2
      exact ⟨t, by simp [h, mem_subsets ht], by simp⟩
    have hstack : (s.push t).stack.length = s.stack.length + 1 := by
      rw [push_of_not_mem h]
      rfl
    simp only [weight, hstack]
    omega

theorem weight_pushAll_le {next : List WordSet} (hnext : ∀ u ∈ next, m.graph.Holds u) :
    (next.foldl push s).weight m ≤ s.weight m := by
  induction next generalizing s with
  | nil => exact Nat.le_refl _
  | cons u next ih =>
    exact Nat.le_trans (ih fun v hv => hnext v (List.mem_cons_of_mem u hv))
      (weight_push_le (hnext u List.mem_cons_self))

theorem weight_step_lt (hreached : ∀ t, m.Reached t → m.graph.Holds t)
    (h : Exploring m (fun _ => False) s) (hne : s.stack ≠ []) :
    (s.step m).weight m < s.weight m := by
  rw [step]
  split
  · next hstack => exact absurd hstack hne
  · next t rest hstack =>
    have hpop : ({ s with stack := rest } : ComponentSearch).weight m < s.weight m := by
      simp only [weight, hstack, List.length_cons]
      omega
    split
    · exact hpop
    · next next hgrow =>
      refine Nat.lt_of_le_of_lt (weight_pushAll_le ?_) hpop
      intro u hu
      have ht : t ∈ s.stack := hstack ▸ List.mem_cons_self
      exact hreached u (.grow (h.reached t (h.stack_visited t ht)) hgrow hu)

theorem run_spec (hreached : ∀ t, m.Reached t → m.graph.Holds t) {steps : Nat}
    (h : Exploring m (fun _ => False) s) (hsteps : s.weight m ≤ steps) :
    Exploring m (fun _ => False) (s.run m steps) ∧ (s.run m steps).stack = [] ∧
      ∀ u ∈ s.visited, u ∈ (s.run m steps).visited := by
  induction steps generalizing s with
  | zero =>
    refine ⟨h, List.length_eq_zero_iff.1 ?_, fun _ hu => hu⟩
    change s.stack.length = 0
    simp only [weight] at hsteps
    omega
  | succ steps ih =>
    rw [run]
    split
    · next hempty => exact ⟨h, List.isEmpty_iff.1 hempty, fun _ hu => hu⟩
    · next hne =>
      have hlt := weight_step_lt hreached h fun he => hne (List.isEmpty_iff.2 he)
      obtain ⟨hexp, hstack, hvisited⟩ := ih h.step (by omega)
      exact ⟨hexp, hstack, fun u hu => hvisited u (visited_step hu)⟩

theorem start_spec (hreached : ∀ t, m.Reached t → m.graph.Holds t) (ht : t ∈ m.seeds)
    (h : Exploring m (fun _ => False) s) (hstack : s.stack = []) :
    Exploring m (fun _ => False) (s.start m t) ∧ (s.start m t).stack = [] ∧
      t ∈ (s.start m t).visited ∧ ∀ u ∈ s.visited, u ∈ (s.start m t).visited := by
  have hsteps : (s.push t).weight m ≤ Nat.pow 2 m.graph.size := by
    refine Nat.le_trans (weight_push_le (hreached t (.seed ht))) ?_
    rw [weight, hstack, ← length_subsets, List.length_nil, Nat.zero_add]
    exact List.length_filter_le ..
  obtain ⟨hexp, hempty, hvisited⟩ := run_spec hreached (h.push (.seed ht)) hsteps
  exact ⟨hexp, hempty, hvisited t (mem_visited_push.2 (.inl rfl)),
    fun u hu => hvisited u (mem_visited_push.2 (.inr hu))⟩

/-- After any number of seeds the stack is empty, so no search was cut off. -/
theorem startAll_spec (hreached : ∀ t, m.Reached t → m.graph.Holds t) {seeds : List WordSet}
    (hseeds : ∀ t ∈ seeds, t ∈ m.seeds) :
    Exploring m (fun _ => False) (startAll m seeds) ∧ (startAll m seeds).stack = [] ∧
      ∀ t ∈ seeds, t ∈ (startAll m seeds).visited := by
  induction seeds using List.reverseRecOn with
  | nil => exact ⟨exploring_init m, rfl, by simp⟩
  | append_singleton seeds t ih =>
    obtain ⟨hexp, hstack, hvisited⟩ := ih fun u hu => hseeds u (List.mem_append_left _ hu)
    have hstep := start_spec hreached (hseeds t (by simp)) hexp hstack
    rw [startAll, List.foldl_append]
    refine ⟨hstep.1, hstep.2.1, ?_⟩
    intro u hu
    rcases List.mem_append.1 hu with hu | hu
    · exact hstep.2.2.2 u (hvisited u hu)
    · rw [List.mem_singleton.1 hu]
      exact hstep.2.2.1

theorem Exploring.mem_visited (h : Exploring m (fun _ => False) s) (hstack : s.stack = [])
    (hseeds : ∀ t ∈ m.seeds, t ∈ s.visited) (ht : m.Reached t) : t ∈ s.visited := by
  induction ht with
  | seed ht => exact hseeds _ ht
  | grow _ hgrow hu ih => exact h.closed _ ih (by simp [hstack]) not_false _ hgrow _ hu

/-- The search finds exactly the grown sets that need not grow any further. -/
theorem mem_found_startAll (hreached : ∀ t, m.Reached t → m.graph.Holds t) :
    t ∈ (startAll m m.seeds).found ↔ m.Reached t ∧ m.grow? t = none := by
  obtain ⟨hexp, hstack, hseeds⟩ := startAll_spec hreached fun _ ht => ht
  constructor
  · intro ht
    exact ⟨hexp.reached t (hexp.found_visited t ht), hexp.found_final t ht⟩
  · intro ht
    have hvisited := hexp.mem_visited hstack hseeds ht.1
    exact hexp.final_found t hvisited (by simp [hstack]) not_false ht.2

end ComponentSearch

end FedPlan
