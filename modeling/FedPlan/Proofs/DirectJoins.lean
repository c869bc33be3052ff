import FedPlan.Proofs.GreedySelection
import FedPlan.Proofs.Graph.Chains
import Mathlib.Data.List.Perm.Basic

/-!
# Direct joins

A join can be joined directly with whatever one of its sides can be joined with: an input that it drops is
bound by its left side, so the variable is mentioned as a result instead. Therefore the greedy strategy
does without cross products on a connected set in which no member waits for another one. Some member that
is left is always adjacent to one that has been taken, and so it can be joined with the plan made so far.
-/

namespace FedPlan

namespace Plan

/-- A plan can be joined with what its sides can be joined with, and with what its leaves can be joined with. -/
theorem join_merges_neighbors :
    (∀ l r p x : Plan, l.join? r = .ok p →
      (p.canJoin x = true ↔ l.canJoin x = true ∨ r.canJoin x = true)) ∧
    ∀ p x : Plan, p.canJoin x = true ↔ ∃ f ∈ p.leaves, (source f).canJoin x = true := by
  constructor
  · exact fun l r p x h => canJoin_of_join? h x
  · exact fun p x => canJoin_iff_leaves x

/-- The first hop cannot be joined with the third one, but its join with the second one can. -/
theorem firstTwo_joins_third :
    Chain.first.join? Chain.second = .ok Chain.firstTwo ∧
    Chain.first.canJoin Chain.third = false ∧ Chain.firstTwo.canJoin Chain.third = true := by
  have hjoin : Chain.first.join? Chain.second = .ok Chain.firstTwo := by decide +kernel
  have hsecond : Chain.second.canJoin Chain.third = true := by decide +kernel
  exact ⟨hjoin, by decide +kernel, (join_merges_neighbors.1 _ _ _ _ hjoin).2 (.inr hsecond)⟩

/-- The titles need a number, which the books in front of them bind. Their join needs none any more, but
it can still be joined with the shops, because now the number is one of its results. -/
example :
    let shops := source (.hop "shops" ⟨"isbn"⟩ ⟨"price"⟩)
    Lookups.titles.canJoin shops = true ∧
      ((Lookups.books.join? Lookups.titles).toOption.map fun p =>
        (p.required.isEmpty, p.canJoin shops)) = some (true, true) := by decide +kernel

theorem exists_common_result {l r : Plan} {ps : List Plan} (hl : l.Merges ps)
    (hps : ∀ m ∈ ps, m.required = ∅ ∧ m.optional = ∅) (h : l.canJoin r = true) :
    ∃ v ∈ l.results, r.mentions v = true := by
  rcases canJoin_iff.1 h with hcommon | ⟨v, hv, hmentions⟩
  · exact hcommon
  · obtain ⟨m, hm, hmentioned⟩ := (hl.mentions v).1 hmentions
    obtain ⟨hrequired, hoptional⟩ := hps m hm
    have hresult : v ∈ m.results := by simpa [mentions_iff, hrequired, hoptional] using hmentioned
    exact ⟨v, (hl.results v).2 ⟨m, hm, hresult⟩, mentions_iff.2 (.inl hv)⟩

end Plan

namespace JoinGraph

variable {g : JoinGraph} {cost : Plan → Cardinality} {members : WordSet} {taken : List Nat}
  {current : Option Plan} {i : Nat} {p q made : Plan}

/-- No member needs what a member binds. -/
def Independent (g : JoinGraph) (members : WordSet) : Prop :=
  ∀ p ∈ g.plansOf members, ∀ q ∈ g.plansOf members, ∀ v ∈ p.required, v ∉ q.results

theorem Independent.available (h : g.Independent members) (hi : i ∈ members) (hleft : i ∉ taken)
    (hp : g.node? i = some p) : g.Available members taken current i p where
  mem := hi
  left := hleft
  node := hp
  ready := by
    rw [Plan.isReady_iff]
    intro v hv hproduced
    obtain ⟨q, hq, hres⟩ := mem_producedBy.1 hproduced
    exact absurd hres (h p (mem_plansOf.2 ⟨i, hi, hp⟩) q hq v hv)

theorem Picks.mem (h : g.Picks cost members taken current) : ∀ i ∈ taken, i ∈ members := by
  induction h with
  | start => exact fun i hi => absurd hi List.not_mem_nil
  | first hnext =>
    intro i hi
    rw [List.mem_singleton.1 hi]
    exact hnext.1.mem
  | next _ hnext _ ih =>
    intro i hi
    rcases List.mem_append.1 hi with hi | hi
    · exact ih i hi
    · rw [List.mem_singleton.1 hi]
      exact hnext.1.mem

theorem Picks.canJoin_of_adjacent (h : g.Picks cost members taken (some made)) {a b : Nat}
    (ha : a ∈ taken) (hadj : b ∈ g.neighbors a) (hq : g.node? b = some q) : made.canJoin q = true := by
  obtain ⟨first, rest, hnodes, hmade⟩ := h.leftDeep
  obtain ⟨_, p, q', hp, hq', hjoin⟩ := mem_neighbors.1 hadj
  cases hq.symm.trans hq'
  have hpart : p ∈ first :: rest := by
    have hmem := List.mem_map_of_mem (f := g.node?) ha
    rw [hp, ← hnodes] at hmem
    simpa using hmem
  exact ((Plan.merges_of_leftDeep? hmade).canJoin_iff q).2 ⟨p, hpart, hjoin⟩

/-- Some member that is left is adjacent to one that has been taken, so nothing is taken that stands apart. -/
theorem Picks.canJoin_next (h : g.Picks cost members taken (some made))
    (hconn : g.Connected members) (hind : g.Independent members)
    (hnext : g.IsNext cost members taken (some made) i p) : made.canJoin p = true := by
  obtain ⟨havail, hleast⟩ := hnext
  obtain ⟨first, rest, hnodes, _⟩ := h.leftDeep
  obtain ⟨t, ht⟩ : ∃ t, t ∈ taken := by
    apply List.exists_mem_of_ne_nil
    rintro rfl
    cases hnodes
  have hpart : ∀ n ∈ WordSet.ofList taken, n ∈ members := fun n hn => h.mem n (WordSet.mem_ofList.1 hn)
  obtain ⟨a, ha, b, hb, hnot, hadj⟩ := hconn.exists_exit hpart (WordSet.mem_ofList.2 ht) havail.mem
    (fun hi => havail.left (WordSet.mem_ofList.1 hi))
  rw [WordSet.mem_ofList] at ha hnot
  obtain ⟨q, hq⟩ := exists_node (lt_size_of_mem_neighbors hadj).2
  have hother : standsApart (some made) q = false := by
    simp [standsApart, h.canJoin_of_adjacent ha hadj hq]
  have hdirect : standsApart (some made) p = false := by
    rcases rank_le_iff.1 (hleast b q (hind.available hb hnot hq)) with hlt | ⟨heq, _⟩
    · rw [hother] at hlt
      cases (Bool.lt_iff.1 hlt).2
    · exact heq.trans hother
  simpa [standsApart] using hdirect

theorem Picks.joins_directly (h : g.Picks cost members taken (some p)) (hconn : g.Connected members)
    (hind : g.Independent members) :
    ∃ first rest, (first :: rest).map some = taken.map g.node? ∧
      Plan.leftDeep? first rest = .ok p ∧
      ∀ before q after made, rest = before ++ q :: after →
        Plan.leftDeep? first before = .ok made → made.canJoin q = true := by
  generalize hmade : some p = current at h
  induction h generalizing p with
  | start => cases hmade
  | @first i r hnext =>
    cases hmade
    refine ⟨r, [], by simp [hnext.1.node], rfl, ?_⟩
    intro before q after made he
    simp at he
  | @next taken made i r joined hpicks hnext hjoin ih =>
    cases hmade
    obtain ⟨first, rest, hnodes, hrest, hdirect⟩ := ih rfl
    refine ⟨first, rest ++ [r], ?_, (Plan.leftDeep?_concat hrest).trans hjoin, ?_⟩
    · rw [← List.cons_append, List.map_append, hnodes, List.map_append, List.map_singleton,
        List.map_singleton, hnext.1.node]
    · intro before q after made' he hbefore
      -- Either this member is the one that was taken last, or it was joined in a turn before.
      rcases List.eq_nil_or_concat after with rfl | ⟨after, z, rfl⟩
      · obtain ⟨rfl, hlast⟩ := List.append_inj' he rfl
        cases hlast
        cases hrest.symm.trans hbefore
        exact hpicks.canJoin_next hconn hind hnext
      · have hfront : rest = before ++ q :: after := by
          have hsplit : rest ++ [r] = (before ++ q :: after) ++ [z] := by simpa using he
          exact (List.append_inj' hsplit rfl).1
        exact hdirect before q after made' hfront hbefore

end JoinGraph

namespace Strategy

theorem exists_greedyBy_selects (cost : Plan → Cardinality) {g : JoinGraph} {s : NodeSet} (hs : g.Owns s)
    (hne : ∃ i, i ∈ s.members) :
    ∃ answer, greedyBy cost g s = .ok answer ∧ g.Selects cost s.members answer := by
  obtain ⟨answer, hrun⟩ : ∃ answer, greedyOrder cost (g.plansOf s.members) = .ok answer := by
    rcases greedyOrder_cases cost (g.plansOf s.members) with ⟨p, hp, _⟩ | ⟨hnone, _⟩
    · exact ⟨some p, hp⟩
    · exact ⟨none, hnone⟩
  refine ⟨answer, ?_, JoinGraph.greedyOrder_selects hs.holds hne hrun⟩
  rw [greedyBy_eq cost hs, hrun]
  rfl

/-- On a connected set in which no member waits for another one, each join is a direct one. If there are no
inputs at all, it is made on some variable. -/
theorem greedyBy_joins_directly (cost : Plan → Cardinality) (g : JoinGraph) (s : NodeSet)
    (hs : g.Owns s) (hne : ∃ i, i ∈ s.members) (hconn : g.isConnected? s = .ok true)
    (hind : g.Independent s.members) :
    ∃ p first rest, greedyBy cost g s = .ok (some p) ∧
      (first :: rest).Perm (g.plansOf s.members) ∧ Plan.leftDeep? first rest = .ok p ∧
      ∀ before q after, rest = before ++ q :: after →
        ∃ current joined shape, Plan.leftDeep? first before = .ok current ∧
          joined.root = .join current q shape ∧ Plan.leftDeep? joined after = .ok p ∧
          current.canJoin q = true ∧
          ((∀ m ∈ g.plansOf s.members, m.required = ∅ ∧ m.optional = ∅) → shape.on ≠ ∅) := by
  rw [JoinGraph.isConnected?_eq_ok hs, Except.ok.injEq, JoinGraph.isConnected_iff] at hconn
  obtain ⟨answer, hanswer, hselects⟩ := exists_greedyBy_selects cost hs hne
  cases hselects with
  | stuck _ hmem hleft hnone =>
    obtain ⟨p, hp⟩ := JoinGraph.exists_node (hs.holds _ hmem)
    exact absurd (hind.available hmem hleft hp) (hnone _ p)
  | @plan is p hpicks hall =>
    obtain ⟨first, rest, hnodes, hmade, hdirect⟩ := hpicks.joins_directly hconn hind
    have hperm : (first :: rest).Perm (g.plansOf s.members) := by
      rw [← List.map_perm_map_iff fun _ _ => Option.some.inj, hnodes,
        JoinGraph.map_some_plansOf hs.holds]
      exact hall.map g.node?
    refine ⟨p, first, rest, hanswer, hperm, hmade, ?_⟩
    rintro before q after rfl
    obtain ⟨current, joined, hcurrent, hjoin, hafter⟩ := Plan.leftDeep?_split hmade
    obtain ⟨shape, hroot, hon⟩ := Plan.exists_root_of_join? hjoin
    have hcan := hdirect before q after current rfl hcurrent
    refine ⟨current, joined, shape, hcurrent, hroot, hafter, hcan, ?_⟩
    intro hfree hempty
    have hbefore : ∀ m ∈ first :: before, m.required = ∅ ∧ m.optional = ∅ := by
      intro m hm
      apply hfree m (hperm.subset _)
      rw [← List.cons_append]
      exact List.mem_append_left _ hm
    obtain ⟨v, hv, hmentions⟩ :=
      Plan.exists_common_result (Plan.merges_of_leftDeep? hcurrent) hbefore hcan
    have hmem : v ∈ shape.on := (hon v).2 ⟨hv, hmentions⟩
    rw [hempty] at hmem
    exact VarSet.not_mem_empty v hmem

/-- The fourth hop comes first, and from there on the plan grows at its two ends only. -/
theorem row_greedyBy_joins_directly :
    ∃ p first rest, greedyBy fourthCheapest Row.graph Row.graph.fullSet = .ok (some p) ∧
      p.leaves.map Fragment.source = ["d", "c", "b", "a", "e"] ∧
      Plan.leftDeep? first rest = .ok p ∧
      ∀ before q after, rest = before ++ q :: after →
        ∃ current joined shape, Plan.leftDeep? first before = .ok current ∧
          joined.root = .join current q shape ∧ Plan.leftDeep? joined after = .ok p ∧
          current.canJoin q = true ∧ shape.on ≠ ∅ := by
  have hs : Row.graph.Owns Row.graph.fullSet :=
    JoinGraph.owns_own fun i hi => WordSet.mem_range.1 hi
  have hfree : ∀ m ∈ Row.graph.plansOf Row.graph.fullSet.members,
      m.required = ∅ ∧ m.optional = ∅ := by decide +kernel
  have hind : Row.graph.Independent Row.graph.fullSet.members := by
    intro p hp q _ v hv
    rw [(hfree p hp).1] at hv
    exact absurd hv (VarSet.not_mem_empty v)
  obtain ⟨p, first, rest, hp, _, hmade, hdirect⟩ := greedyBy_joins_directly fourthCheapest Row.graph
    Row.graph.fullSet hs ⟨0, by decide +kernel⟩ (by decide +kernel) hind
  have hleaves : ((greedyBy fourthCheapest Row.graph Row.graph.fullSet).toOption.bind id).map
      (·.leaves.map Fragment.source) = some ["d", "c", "b", "a", "e"] := by decide +kernel
  rw [hp] at hleaves
  refine ⟨p, first, rest, hp, Option.some.inj hleaves, hmade, ?_⟩
  intro before q after he
  obtain ⟨current, joined, shape, hcurrent, hroot, hafter, hcan, hon⟩ := hdirect before q after he
  exact ⟨current, joined, shape, hcurrent, hroot, hafter, hcan, hon hfree⟩

end Strategy

end FedPlan
