import FedPlan.Graph.Connectivity
import FedPlan.Proofs.Hops
import Mathlib.Logic.Relation

/-!
# Chains of adjacent nodes

The search with a queue visits exactly the nodes to which a chain of adjacent members leads, and a set
is found connected if and only if chains of its members link each two of them.
-/

namespace FedPlan

namespace JoinGraph

variable {g g' : JoinGraph} {allowed members visited : WordSet} {queue : List Nat} {i j start : Nat}
  {s : NodeSet}

/-- The two are adjacent members of the set. -/
structure Within (g : JoinGraph) (members : WordSet) (i j : Nat) : Prop where
  left : i ∈ members
  right : j ∈ members
  adjacent : j ∈ g.neighbors i

/-- A chain of adjacent members leads from one to the other. -/
def Linked (g : JoinGraph) (members : WordSet) : Nat → Nat → Prop :=
  Relation.ReflTransGen (g.Within members)

def Connected (g : JoinGraph) (members : WordSet) : Prop :=
  ∀ i ∈ members, ∀ j ∈ members, g.Linked members i j

theorem Within.symm (h : g.Within members i j) : g.Within members j i :=
  ⟨h.right, h.left, mem_neighbors_comm.1 h.adjacent⟩

theorem Linked.symm (h : g.Linked members i j) : g.Linked members j i := by
  induction h with
  | refl => exact .refl
  | tail _ hstep ih => exact ih.head hstep.symm

theorem Linked.mem (h : g.Linked members i j) (hi : i ∈ members) : j ∈ members := by
  induction h with
  | refl => exact hi
  | tail _ hstep _ => exact hstep.right

theorem Linked.mono {more : WordSet} (h : g.Linked members i j) (hsub : ∀ n ∈ members, n ∈ more) :
    g.Linked more i j := by
  induction h with
  | refl => exact .refl
  | tail _ hstep ih => exact ih.tail ⟨hsub _ hstep.left, hsub _ hstep.right, hstep.adjacent⟩

theorem connected_singleton (g : JoinGraph) (i : Nat) : g.Connected (.singleton i) := by
  intro a ha b hb
  rw [WordSet.mem_singleton.1 ha, WordSet.mem_singleton.1 hb]
  exact .refl

theorem Connected.insert (h : g.Connected members) (hi : i ∈ members) (hadj : j ∈ g.neighbors i) :
    g.Connected (members.insert j) := by
  have hold : ∀ n ∈ members, n ∈ members.insert j := fun n hn => WordSet.mem_insert.2 (.inr hn)
  have hnew : g.Within (members.insert j) i j := ⟨hold i hi, WordSet.mem_insert.2 (.inl rfl), hadj⟩
  have hfrom : ∀ n ∈ members.insert j, g.Linked (members.insert j) i n := by
    intro n hn
    rcases WordSet.mem_insert.1 hn with he | hn
    · rw [he]
      exact .single hnew
    · exact (h i hi n hn).mono hold
  intro a ha b hb
  exact (hfrom a ha).symm.trans (hfrom b hb)

/-- A part of a connected set that is neither empty nor the whole set is left by some edge. -/
theorem Connected.exists_exit {part : WordSet} (h : g.Connected members)
    (hsub : ∀ n ∈ part, n ∈ members) (hi : i ∈ part) (hj : j ∈ members) (hnot : j ∉ part) :
    ∃ a ∈ part, ∃ b ∈ members, b ∉ part ∧ b ∈ g.neighbors a := by
  have hlink := h i (hsub i hi) j hj
  clear hj
  induction hlink with
  | refl => exact absurd hi hnot
  | @tail b c _ hstep ih =>
    by_cases hb : b ∈ part
    · exact ⟨b, hb, c, hstep.right, hnot, hstep.adjacent⟩
    · exact ih hb

/-! ## Neighbourhoods -/

theorem mem_around : j ∈ g.around members ↔ ∃ i ∈ members, j ∈ g.neighbors i := by
  simp [around, WordSet.mem_foldl_union]

theorem mem_neighborhood :
    j ∈ g.neighborhood members ↔ j ∉ members ∧ ∃ i ∈ members, j ∈ g.neighbors i := by
  rw [neighborhood, WordSet.mem_sdiff, mem_around, and_comm]

/-! ## The queue -/

/-- What is visited when a node is taken from the queue. -/
private def newlyVisited (g : JoinGraph) (allowed visited : WordSet) (i : Nat) : WordSet :=
  (g.neighbors i ∩ allowed) \ visited

private theorem mem_newlyVisited : j ∈ newlyVisited g allowed visited i ↔
    j ∈ g.neighbors i ∧ j ∈ allowed ∧ j ∉ visited := by
  simp only [newlyVisited, WordSet.mem_sdiff, WordSet.mem_inter, and_assoc]

private theorem explore_nil (steps : Nat) :
    g.explore allowed steps ⟨visited, []⟩ = ⟨visited, []⟩ := by
  cases steps <;> rfl

private theorem explore_cons (steps : Nat) :
    g.explore allowed (steps + 1) ⟨visited, i :: queue⟩ =
      g.explore allowed steps ⟨visited ∪ newlyVisited g allowed visited i,
        queue ++ (newlyVisited g allowed visited i).toList⟩ := rfl

private def unvisited (g : JoinGraph) (visited : WordSet) : WordSet := .range g.size \ visited

private theorem size_unvisited (g : JoinGraph) (allowed visited : WordSet) (i : Nat) :
    (unvisited g visited).size = (unvisited g (visited ∪ newlyVisited g allowed visited i)).size +
      (newlyVisited g allowed visited i).size := by
  have hsub : ∀ n ∈ newlyVisited g allowed visited i, n ∈ unvisited g visited := by
    intro n hn
    obtain ⟨hadj, _, hnew⟩ := mem_newlyVisited.1 hn
    exact WordSet.mem_sdiff.2 ⟨WordSet.mem_range.2 (lt_size_of_mem_neighbors hadj).2, hnew⟩
  have hrest : unvisited g (visited ∪ newlyVisited g allowed visited i) =
      unvisited g visited \ newlyVisited g allowed visited i := by
    apply WordSet.ext
    simp [unvisited, and_assoc]
  rw [hrest, WordSet.size_of_subset hsub]

private theorem size_unvisited_le (g : JoinGraph) (visited : WordSet) :
    (unvisited g visited).size ≤ g.size := by
  have hrange : (WordSet.range g.size).toList.Perm (List.range g.size) :=
    WordSet.toList_perm List.nodup_range (by simp)
  calc (unvisited g visited).size
    _ ≤ (WordSet.range g.size).size :=
      WordSet.size_le_of_subset fun n hn => (WordSet.mem_sdiff.1 hn).1
    _ = g.size := by rw [WordSet.size_eq_length, hrange.length_eq, List.length_range]

/-- What holds whenever a node is about to be taken from the queue: what has been visited can be reached,
and only from a node in the queue something new may be reached. -/
private structure Visiting (g : JoinGraph) (allowed : WordSet) (start : Nat) (s : Sweep) : Prop where
  start_mem : start ∈ s.visited
  queued : ∀ i ∈ s.queue, i ∈ s.visited
  linked : ∀ i ∈ s.visited, g.Linked allowed start i
  closed : ∀ i ∈ s.visited, i ∉ s.queue → ∀ j ∈ g.neighbors i, j ∈ allowed → j ∈ s.visited

private theorem visiting_singleton (g : JoinGraph) (allowed : WordSet) (start : Nat) :
    Visiting g allowed start ⟨.singleton start, [start]⟩ where
  start_mem := by simp
  queued := by simp
  linked := by
    intro i hi
    rw [WordSet.mem_singleton.1 hi]
    exact .refl
  closed := by
    intro i hi hnot
    exact absurd (List.mem_singleton.2 (WordSet.mem_singleton.1 hi)) hnot

private theorem Visiting.step (h : Visiting g allowed start ⟨visited, i :: queue⟩)
    (hstart : start ∈ allowed) :
    Visiting g allowed start ⟨visited ∪ newlyVisited g allowed visited i,
      queue ++ (newlyVisited g allowed visited i).toList⟩ where
  start_mem := WordSet.mem_union.2 (.inl h.start_mem)
  queued := by
    intro k hk
    rcases List.mem_append.1 hk with hk | hk
    · exact WordSet.mem_union.2 (.inl (h.queued k (List.mem_cons_of_mem i hk)))
    · exact WordSet.mem_union.2 (.inr (WordSet.mem_toList.1 hk))
  linked := by
    intro k hk
    rcases WordSet.mem_union.1 hk with hk | hk
    · exact h.linked k hk
    · obtain ⟨hadj, hallowed, _⟩ := mem_newlyVisited.1 hk
      have hlink := h.linked i (h.queued i List.mem_cons_self)
      exact hlink.tail ⟨hlink.mem hstart, hallowed, hadj⟩
  closed := by
    intro k hk hout j hadj hallowed
    rw [List.mem_append, not_or, WordSet.mem_toList] at hout
    have hold : k ∈ visited := (WordSet.mem_union.1 hk).resolve_right hout.2
    rw [WordSet.mem_union]
    by_cases hj : j ∈ visited
    · exact .inl hj
    · by_cases hki : k = i
      · exact .inr (mem_newlyVisited.2 ⟨hki ▸ hadj, hallowed, hj⟩)
      · have hqueue : k ∉ i :: queue := by simp [hki, hout.1]
        exact .inl (h.closed k hold hqueue j hadj hallowed)

private theorem Visiting.mem_iff_linked {s : Sweep} (h : Visiting g allowed start s)
    (hqueue : s.queue = []) : j ∈ s.visited ↔ g.Linked allowed start j := by
  constructor
  · exact h.linked j
  · intro hj
    induction hj with
    | refl => exact h.start_mem
    | @tail i k _ hstep ih =>
      have hout : i ∉ s.queue := hqueue ▸ List.not_mem_nil
      exact h.closed i ih hout k hstep.adjacent hstep.right

/-- A node is put into the queue when it is visited, so each step makes the number of nodes that are in
the queue or have not been visited smaller. -/
private theorem visiting_explore {steps : Nat} (hstart : start ∈ allowed)
    (h : Visiting g allowed start ⟨visited, queue⟩)
    (hsteps : (unvisited g visited).size + queue.length ≤ steps) :
    (g.explore allowed steps ⟨visited, queue⟩).queue = [] ∧
      Visiting g allowed start (g.explore allowed steps ⟨visited, queue⟩) := by
  induction steps generalizing visited queue with
  | zero =>
    obtain rfl : queue = [] := List.length_eq_zero_iff.1 (by omega)
    exact ⟨rfl, h⟩
  | succ steps ih =>
    cases queue with
    | nil => exact ⟨rfl, h⟩
    | cons i queue =>
      rw [explore_cons]
      apply ih (h.step hstart)
      have hsize := size_unvisited g allowed visited i
      rw [List.length_append, ← WordSet.size_eq_length]
      rw [List.length_cons] at hsteps
      omega

theorem search_of_mem (hstart : start ∈ allowed) : (g.search start allowed).queue = [] ∧
    ∀ j, j ∈ (g.search start allowed).visited ↔ g.Linked allowed start j := by
  have hvisited : WordSet.singleton start ∩ allowed = .singleton start := by
    apply WordSet.ext
    intro n
    rw [WordSet.mem_inter, WordSet.mem_singleton, and_iff_left_of_imp]
    rintro rfl
    exact hstart
  have hqueue : (WordSet.singleton start).toList = [start] :=
    List.perm_singleton.1 (WordSet.toList_perm (by simp) (by simp))
  have hsize := size_unvisited_le g (.singleton start)
  rw [search, hvisited, hqueue]
  obtain ⟨hempty, hend⟩ :=
    visiting_explore hstart (visiting_singleton g allowed start) (Nat.succ_le_succ hsize)
  exact ⟨hempty, fun j => hend.mem_iff_linked hempty⟩

theorem search_of_not_mem (hstart : start ∉ allowed) : g.search start allowed = ⟨∅, []⟩ := by
  have hempty : WordSet.singleton start ∩ allowed = ∅ := by
    apply WordSet.ext
    intro n
    rw [WordSet.mem_inter, WordSet.mem_singleton, iff_false_right (WordSet.not_mem_empty n)]
    rintro ⟨rfl, hn⟩
    exact hstart hn
  have hqueue : (∅ : WordSet).toList = [] := rfl
  rw [search, hempty, hqueue, explore_nil]

/-- Each search goes on until its queue is empty. -/
theorem queue_search (g : JoinGraph) (start : Nat) (allowed : WordSet) :
    (g.search start allowed).queue = [] := by
  by_cases hstart : start ∈ allowed
  · exact (search_of_mem hstart).1
  · rw [search_of_not_mem hstart]

theorem mem_reach : j ∈ g.reach start allowed ↔ start ∈ allowed ∧ g.Linked allowed start j := by
  rw [reach]
  by_cases hstart : start ∈ allowed
  · rw [(search_of_mem hstart).2, and_iff_right hstart]
  · rw [search_of_not_mem hstart]
    simp [hstart]

theorem reach_eq_iff_connected (hstart : start ∈ members) :
    g.reach start members = members ↔ g.Connected members := by
  constructor
  · intro heq
    have hlink : ∀ n ∈ members, g.Linked members start n := by
      intro n hn
      have hreach : n ∈ g.reach start members := by rwa [heq]
      exact (mem_reach.1 hreach).2
    intro i hi j hj
    exact (hlink i hi).symm.trans (hlink j hj)
  · intro hconn
    apply WordSet.ext
    intro n
    rw [mem_reach]
    exact ⟨fun h => h.2.mem hstart, fun hn => ⟨hstart, hconn start hstart n hn⟩⟩

theorem isConnected_iff : g.isConnected members = true ↔ g.Connected members := by
  rw [isConnected]
  split
  · next hnone =>
    rw [members.first?_eq_head?, List.head?_eq_none_iff, WordSet.toList_eq_nil_iff] at hnone
    simp only [true_iff]
    intro i hi
    exact absurd hi (hnone i)
  · next start hfirst => rw [beq_iff_eq, reach_eq_iff_connected (WordSet.mem_of_first? hfirst)]

/-! ## Checked access -/

theorem reach?_eq_ok (h : g.Owns s) :
    g.reach? start s = .ok (g.own (g.reach start s.members)) := by
  have hin : ¬(start ∈ s.members ∧ g.size ≤ start) := fun hout =>
    Nat.not_le_of_lt (h.holds start hout.1) hout.2
  rw [reach?, if_neg (not_not_intro h.owner), if_neg hin]

theorem own_eq_iff (h : g.Owns s) : g.own members = s ↔ members = s.members := by
  constructor
  · rintro rfl
    rfl
  · rintro rfl
    rw [own, ← h.owner]

theorem isConnected?_eq_ok (h : g.Owns s) :
    g.isConnected? s = .ok (g.isConnected s.members) := by
  rw [isConnected?, isConnected]
  split
  · rfl
  · next start _ =>
    rw [reach?_eq_ok h]
    have heq : (g.own (g.reach start s.members) == s) = (g.reach start s.members == s.members) := by
      rw [Bool.eq_iff_iff, beq_iff_eq, beq_iff_eq, own_eq_iff h]
    exact congrArg Except.ok heq

/-- The search from any position ends with an empty queue and has found the nodes to which chains of
members lead from there. Whether a set is connected can be told by a search from any of its members. -/
theorem reachability_exact (g : JoinGraph) (s : NodeSet) (hs : g.Owns s) :
    (∀ start, (g.search start s.members).queue = [] ∧
      ∃ found, g.reach? start s = .ok found ∧ found.owner = g.id ∧
        found.members = (g.search start s.members).visited ∧
        (∀ i, i ∈ found.members ↔ start ∈ s.members ∧ g.Linked s.members start i) ∧
        (start ∉ s.members → found = g.emptySet)) ∧
    ∃ connected, g.isConnected? s = .ok connected ∧
      (connected = true ↔ ∀ i ∈ s.members, ∀ j ∈ s.members, g.Linked s.members i j) ∧
      ∀ start ∈ s.members, connected = true ↔ g.reach? start s = .ok s := by
  constructor
  · intro start
    refine ⟨queue_search g start s.members, _, reach?_eq_ok hs, rfl, rfl, fun i => mem_reach, ?_⟩
    intro hnot
    have hempty : g.reach start s.members = ∅ := by
      apply WordSet.ext
      intro i
      simp [mem_reach, hnot]
    rw [hempty, emptySet]
  · refine ⟨_, isConnected?_eq_ok hs, isConnected_iff, ?_⟩
    intro start hstart
    rw [isConnected_iff, reach?_eq_ok hs, Except.ok.injEq, own_eq_iff hs,
      reach_eq_iff_connected hstart]

theorem row_reachability :
    Row.graph.Linked (.ofList [0, 1, 3, 4]) 0 1 ∧ ¬Row.graph.Linked (.ofList [0, 1, 3, 4]) 0 4 ∧
      Row.graph.reach? 2 (Row.graph.setOf [0, 1, 3, 4]) = .ok Row.graph.emptySet ∧
      Row.graph.isConnected? (Row.graph.setOf [0, 1, 3, 4]) = .ok false := by
  have hs : Row.graph.Owns (Row.graph.setOf [0, 1, 3, 4]) := owns_setOf (by decide)
  obtain ⟨hreach, connected, hconn, hiff, _⟩ := reachability_exact _ _ hs
  obtain ⟨_, found, hfound, _, _, hmem, _⟩ := hreach 0
  have hfirst : Row.graph.reach? 0 (Row.graph.setOf [0, 1, 3, 4]) =
      .ok (Row.graph.setOf [0, 1]) := by decide +kernel
  cases hfirst.symm.trans hfound
  have hlink : Row.graph.Linked (.ofList [0, 1, 3, 4]) 0 1 := ((hmem 1).1 (by decide)).2
  have hnot : ¬Row.graph.Linked (.ofList [0, 1, 3, 4]) 0 4 := fun h =>
    absurd ((hmem 4).2 ⟨by decide, h⟩) (by decide)
  refine ⟨hlink, hnot, ?_, ?_⟩
  · obtain ⟨_, found, hfound, _, _, _, hempty⟩ := hreach 2
    rw [hfound, hempty (by decide)]
  · have hfalse : connected = false := by
      rw [← Bool.not_eq_true, hiff]
      exact fun hall => hnot (hall 0 (by decide) 4 (by decide))
    rw [hconn, hfalse]

/-! ## Growth -/

theorem Grows.linked_iff (h : g.Grows g') (hs : g.Holds members) :
    g'.Linked members i j ↔ g.Linked members i j := by
  have hstep : ∀ a b, g'.Within members a b ↔ g.Within members a b := by
    intro a b
    constructor
    · intro hw
      exact ⟨hw.left, hw.right,
        (h.mem_neighbors_iff (hs a hw.left) (hs b hw.right)).1 hw.adjacent⟩
    · intro hw
      exact ⟨hw.left, hw.right,
        (h.mem_neighbors_iff (hs a hw.left) (hs b hw.right)).2 hw.adjacent⟩
  have hrel : g'.Within members = g.Within members := by
    funext a b
    exact propext (hstep a b)
  rw [Linked, Linked, hrel]

theorem Grows.connected_iff (h : g.Grows g') (hs : g.Holds members) :
    g'.Connected members ↔ g.Connected members := by
  simp only [Connected, h.linked_iff hs]

end JoinGraph

end FedPlan
