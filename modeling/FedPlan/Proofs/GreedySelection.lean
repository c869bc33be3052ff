import FedPlan.Proofs.GreedyPlans
import FedPlan.Proofs.Plan.LeafSequence
import Mathlib.Data.Prod.Lex

/-!
# The choices of the greedy strategy

In each turn the greedy strategy takes one of the members that are ready. Those that can be joined
directly with the plan made so far go before the others, then cheap ones before dear ones, and of equally
cheap ones the one at the smallest position is taken. It is joined to the right of the plan. The strategy
gives up as soon as none of the members that are left is ready.
-/

namespace FedPlan

section Least

variable {α κ : Type} [LinearOrder κ] {eligible : α → Bool} {noWorse : α → α → Bool} {key : α → κ}
  {as rest : List α} {b : α}

theorem takeBest_least (hkey : ∀ a b, noWorse a b = true ↔ key a ≤ key b)
    (h : takeBest eligible noWorse as = some (b, rest)) :
    ∃ before after, as = before ++ b :: after ∧ rest = before ++ after ∧ eligible b = true ∧
      (∀ a ∈ before, eligible a = true → key b < key a) ∧
      ∀ a ∈ after, eligible a = true → key b ≤ key a := by
  induction as generalizing rest b with
  | nil => cases h
  | cons a as ih =>
    rw [takeBest] at h
    split at h
    · next hnone =>
      have hnever := takeBest_eq_none_iff.1 hnone
      split at h
      · next ha =>
        cases h
        refine ⟨[], as, rfl, rfl, ha, List.forall_mem_nil _, ?_⟩
        intro x hx hel
        rw [hnever x hx] at hel
        cases hel
      · cases h
    · next c others hrec =>
      obtain ⟨before, after, rfl, rfl, hc, hbefore, hafter⟩ := ih hrec
      split at h
      · next hfirst =>
        obtain ⟨ha, hle⟩ := Bool.and_eq_true_iff.1 hfirst
        have hac : key a ≤ key c := (hkey a c).1 hle
        cases h
        refine ⟨[], _, rfl, rfl, ha, List.forall_mem_nil _, ?_⟩
        intro x hx hel
        rcases List.mem_append.1 hx with hx | hx
        · exact hac.trans (hbefore x hx hel).le
        · rcases List.mem_cons.1 hx with rfl | hx
          · exact hac
          · exact hac.trans (hafter x hx hel)
      · next hlater =>
        cases h
        refine ⟨a :: before, after, rfl, rfl, hc, List.forall_mem_cons.2 ⟨?_, hbefore⟩, hafter⟩
        intro ha
        rw [ha, Bool.true_and, hkey] at hlater
        exact not_le.1 hlater

end Least

/-! ## The order of the candidates -/

/-- There is a plan made so far, and the given one cannot be joined directly with it. -/
def standsApart (current : Option Plan) (p : Plan) : Bool := current.any fun q => !q.canJoin p

namespace Candidate

variable {c d : Candidate}

/-- What the greedy order looks at. -/
def key (current : Option Plan) (c : Candidate) : Bool ×ₗ Nat :=
  toLex (standsApart current c.plan, c.cost.count)

theorem key_le_iff {current : Option Plan} : c.key current ≤ d.key current ↔
    standsApart current c.plan < standsApart current d.plan ∨
      standsApart current c.plan = standsApart current d.plan ∧ c.cost.count ≤ d.cost.count :=
  Prod.Lex.toLex_le_toLex

theorem noDearer_iff_count : c.noDearer d = true ↔ c.cost.count ≤ d.cost.count := decide_eq_true_iff

theorem noDearer_iff : c.noDearer d = true ↔ c.key none ≤ d.key none := by
  simp [key_le_iff, standsApart, noDearer_iff_count]

theorem noWorseAfter_iff {current : Plan} :
    c.noWorseAfter current d = true ↔ c.key (some current) ≤ d.key (some current) := by
  rw [key_le_iff, noWorseAfter, standsApart, standsApart, Option.any_some, Option.any_some]
  cases current.canJoin c.plan <;> cases current.canJoin d.plan <;> simp [noDearer_iff_count]

end Candidate

namespace JoinGraph

variable {g : JoinGraph} {cost : Plan → Cardinality} {members : WordSet} {taken : List Nat}
  {current : Option Plan} {i : Nat} {p : Plan} {ms : List (Nat × Plan)}

/-- The order in which members are taken if they are ready: first those that can be joined directly with
the plan made so far, if there is one, then cheap ones, and last those at small positions. -/
def rank (cost : Plan → Cardinality) (current : Option Plan) (i : Nat) (p : Plan) :
    Bool ×ₗ Nat ×ₗ Nat :=
  toLex (standsApart current p, toLex ((cost p).count, i))

/-- A member that has not been taken yet and is ready when the plan made so far has been evaluated. -/
structure Available (g : JoinGraph) (members : WordSet) (taken : List Nat) (current : Option Plan)
    (i : Nat) (p : Plan) : Prop where
  mem : i ∈ members
  left : i ∉ taken
  node : g.node? i = some p
  ready : p.isReady (producedBy (g.plansOf members)) (current.elim ∅ Plan.results) = true

/-- The least one of the members that are available. -/
def IsNext (g : JoinGraph) (cost : Plan → Cardinality) (members : WordSet) (taken : List Nat)
    (current : Option Plan) (i : Nat) (p : Plan) : Prop :=
  g.Available members taken current i p ∧
    ∀ j q, g.Available members taken current j q → rank cost current i p ≤ rank cost current j q

/-- The members at these positions have been taken one after another, always the next one, and joined
left-deep to the plan. -/
inductive Picks (g : JoinGraph) (cost : Plan → Cardinality) (members : WordSet) :
    List Nat → Option Plan → Prop
  | start : Picks g cost members [] none
  | first {i : Nat} {p : Plan} (hnext : g.IsNext cost members [] none i p) :
      Picks g cost members [i] (some p)
  | next {taken : List Nat} {current : Plan} {i : Nat} {p joined : Plan}
      (hpicks : Picks g cost members taken (some current))
      (hnext : g.IsNext cost members taken (some current) i p)
      (hjoin : current.join? p = .ok joined) :
      Picks g cost members (taken ++ [i]) (some joined)

/-! ## One turn -/

/-- What stands for a member in the list that is searched. -/
def candidateOf (cost : Plan → Cardinality) (m : Nat × Plan) : Candidate where
  plan := m.2
  cost := cost m.2

theorem rank_le_iff {j : Nat} {q : Plan} : rank cost current i p ≤ rank cost current j q ↔
    standsApart current p < standsApart current q ∨
      standsApart current p = standsApart current q ∧
        ((cost p).count < (cost q).count ∨ (cost p).count = (cost q).count ∧ i ≤ j) := by
  rw [rank, rank, Prod.Lex.toLex_le_toLex, Prod.Lex.toLex_le_toLex]

theorem rank_le_of_key_lt {j : Nat} {q : Plan}
    (h : (candidateOf cost (i, p)).key current < (candidateOf cost (j, q)).key current) :
    rank cost current i p ≤ rank cost current j q := by
  rw [rank_le_iff]
  exact (Prod.Lex.toLex_lt_toLex.1 h).imp_right fun heq => ⟨heq.1, .inl heq.2⟩

theorem rank_le_of_key_le {j : Nat} {q : Plan}
    (h : (candidateOf cost (i, p)).key current ≤ (candidateOf cost (j, q)).key current)
    (hle : i ≤ j) : rank cost current i p ≤ rank cost current j q := by
  rw [rank_le_iff]
  refine (Candidate.key_le_iff.1 h).imp_right fun heq => ⟨heq.1, ?_⟩
  exact (Nat.lt_or_eq_of_le heq.2).imp_right fun hcost => ⟨hcost, hle⟩

/-- The members that have not been taken yet, in ascending order and with their plans. -/
structure Pending (g : JoinGraph) (members : WordSet) (taken : List Nat) (ms : List (Nat × Plan)) :
    Prop where
  nodes : ∀ m ∈ ms, g.node? m.1 = some m.2
  sorted : ms.Pairwise fun m n => m.1 < n.1
  all : (taken ++ ms.map (·.1)).Perm members.toList

theorem map_fst_select (h : g.Holds members) : (g.select members).map (·.1) = members.toList := by
  have hnodes : ∀ i ∈ members.toList, ((g.node? i).map (i, ·)).map (·.1) = some i := by
    intro i hi
    obtain ⟨p, hp⟩ := exists_node (h i (WordSet.mem_toList.1 hi))
    rw [hp]
    rfl
  rw [select, List.map_filterMap, List.filterMap_congr hnodes, List.filterMap_some]

theorem pending_select (h : g.Holds members) : g.Pending members [] (g.select members) where
  nodes := fun _ hm => (mem_select.1 hm).2
  sorted := by
    rw [← List.pairwise_map, map_fst_select h]
    exact members.sorted_toList
  all := .of_eq (map_fst_select h)

theorem Pending.mem_and_left {m : Nat × Plan} (h : g.Pending members taken ms) (hm : m ∈ ms) :
    m.1 ∈ members ∧ m.1 ∉ taken := by
  have hpos : m.1 ∈ ms.map (·.1) := List.mem_map_of_mem hm
  have hnodup := h.all.symm.nodup members.nodup_toList
  constructor
  · exact WordSet.mem_toList.1 (h.all.subset (List.mem_append_right taken hpos))
  · exact fun htaken => (List.nodup_append.1 hnodup).2.2 m.1 htaken m.1 hpos rfl

theorem Pending.available_iff (h : g.Pending members taken ms) :
    g.Available members taken current i p ↔ (i, p) ∈ ms ∧
      p.isReady (producedBy (g.plansOf members)) (current.elim ∅ Plan.results) = true := by
  constructor
  · intro havail
    have hi := h.all.symm.subset (WordSet.mem_toList.2 havail.mem)
    obtain ⟨⟨j, q⟩, hm, rfl⟩ := List.mem_map.1 ((List.mem_append.1 hi).resolve_left havail.left)
    cases (h.nodes _ hm).symm.trans havail.node
    exact ⟨hm, havail.ready⟩
  · rintro ⟨hm, hready⟩
    obtain ⟨hmem, hleft⟩ := h.mem_and_left hm
    exact ⟨hmem, hleft, h.nodes _ hm, hready⟩

theorem Pending.take {before after : List (Nat × Plan)} {m : Nat × Plan}
    (h : g.Pending members taken (before ++ m :: after)) :
    g.Pending members (taken ++ [m.1]) (before ++ after) where
  nodes := fun n hn => h.nodes n (by
    rcases List.mem_append.1 hn with hn | hn <;> simp [hn])
  sorted := h.sorted.sublist ((List.sublist_cons_self m after).append_left before)
  all := by
    refine List.Perm.trans ?_ h.all
    simp only [List.map_append, List.map_cons, List.append_assoc, List.singleton_append]
    exact List.perm_middle.symm.append_left taken

theorem Pending.exists_next (h : g.Pending members taken ms) (current : Option Plan)
    {noWorse : Candidate → Candidate → Bool} {next : Candidate} {rest : List Candidate}
    (hkey : ∀ c d, noWorse c d = true ↔ c.key current ≤ d.key current)
    (htake : takeBest
      (Candidate.isReady (producedBy (g.plansOf members)) (current.elim ∅ Plan.results)) noWorse
      (ms.map (candidateOf cost)) = some (next, rest)) :
    ∃ i ms', g.IsNext cost members taken current i next.plan ∧
      rest = ms'.map (candidateOf cost) ∧ g.Pending members (taken ++ [i]) ms' := by
  obtain ⟨before, after, hsplit, rfl, hready, hbefore, hafter⟩ := takeBest_least hkey htake
  obtain ⟨ms₁, ms₂, rfl, rfl, hms₂⟩ := List.map_eq_append_iff.1 hsplit
  obtain ⟨⟨i, p⟩, ms₃, rfl, rfl, rfl⟩ := List.map_eq_cons_iff.1 hms₂
  refine ⟨i, ms₁ ++ ms₃, ⟨h.available_iff.2 ⟨by simp [candidateOf], hready⟩, ?_⟩, ?_, h.take⟩
  · intro j q havail
    obtain ⟨hm, hready'⟩ := h.available_iff.1 havail
    rcases List.mem_append.1 hm with hm | hm
    · exact rank_le_of_key_lt (hbefore _ (List.mem_map_of_mem hm) hready')
    · rcases List.mem_cons.1 hm with he | hm
      · cases he
        exact le_rfl
      · have hlt := (List.pairwise_cons.1 (List.pairwise_append.1 h.sorted).2.1).1 _ hm
        exact rank_le_of_key_le (hafter _ (List.mem_map_of_mem hm) hready') hlt.le
  · rw [List.map_append]

theorem Pending.not_available (h : g.Pending members taken ms)
    {noWorse : Candidate → Candidate → Bool}
    (htake : takeBest
      (Candidate.isReady (producedBy (g.plansOf members)) (current.elim ∅ Plan.results)) noWorse
      (ms.map (candidateOf cost)) = none) : ¬g.Available members taken current i p := by
  intro havail
  obtain ⟨hm, hready⟩ := h.available_iff.1 havail
  have hnot := takeBest_eq_none_iff.1 htake _ (List.mem_map_of_mem hm)
  rw [Candidate.isReady, candidateOf, hready] at hnot
  cases hnot

/-! ## A run -/

/-- What taking the next member again and again leads to: a plan of all members, or a plan, if any, after
which members are left and none of them is ready. -/
inductive Selects (g : JoinGraph) (cost : Plan → Cardinality) (members : WordSet) :
    Option Plan → Prop
  | plan {is : List Nat} {p : Plan} (hpicks : g.Picks cost members is (some p))
      (hall : is.Perm members.toList) : Selects g cost members (some p)
  | stuck {is : List Nat} {current : Option Plan} {i : Nat} (hpicks : g.Picks cost members is current)
      (hmem : i ∈ members) (hleft : i ∉ is) (hnone : ∀ j p, ¬g.Available members is current j p) :
      Selects g cost members none

theorem Pending.stuck {noWorse : Candidate → Candidate → Bool} (h : g.Pending members taken ms)
    (hne : ms ≠ []) (hpicks : g.Picks cost members taken current)
    (htake : takeBest
      (Candidate.isReady (producedBy (g.plansOf members)) (current.elim ∅ Plan.results)) noWorse
      (ms.map (candidateOf cost)) = none) : g.Selects cost members none := by
  obtain ⟨m, hm⟩ := List.exists_mem_of_ne_nil ms hne
  obtain ⟨hmem, hleft⟩ := h.mem_and_left hm
  exact .stuck hpicks hmem hleft fun _ _ => h.not_available htake

theorem Pending.selects_nil {p : Plan} (h : g.Pending members taken [])
    (hpicks : g.Picks cost members taken (some p)) : g.Selects cost members (some p) := by
  have hall := h.all
  rw [List.map_nil, List.append_nil] at hall
  exact .plan hpicks hall

theorem Pending.length_add (h : g.Pending members taken ms) :
    taken.length + ms.length = members.toList.length := by
  simpa using h.all.length_eq

theorem joinRest_selects {steps : Nat} {current : Plan} {answer : Option Plan}
    (hsteps : ms.length ≤ steps) (h : g.Pending members taken ms)
    (hpicks : g.Picks cost members taken (some current))
    (hrun : joinRest (producedBy (g.plansOf members)) steps current (ms.map (candidateOf cost)) =
      .ok answer) : g.Selects cost members answer := by
  induction steps generalizing taken ms current with
  | zero =>
    obtain rfl := List.length_eq_zero_iff.1 (Nat.le_zero.1 hsteps)
    rw [List.map_nil, joinRest_nil] at hrun
    cases hrun
    exact h.selects_nil hpicks
  | succ steps ih =>
    cases ms with
    | nil =>
      rw [List.map_nil, joinRest_nil] at hrun
      cases hrun
      exact h.selects_nil hpicks
    | cons m ms =>
      rw [joinRest_succ (by simp)] at hrun
      split at hrun
      · next htake =>
        cases hrun
        exact h.stuck (List.cons_ne_nil m ms) hpicks htake
      · next next rest htake =>
        obtain ⟨i, ms', hnext, rfl, hpending⟩ :=
          h.exists_next (some current) (fun _ _ => Candidate.noWorseAfter_iff) htake
        obtain ⟨joined, hjoin, hrest⟩ := bind_eq_ok_iff.1 hrun
        refine ih ?_ hpending (hpicks.next hnext hjoin) hrest
        have hbefore := h.length_add
        have hafter := hpending.length_add
        simp only [List.length_append, List.length_cons, List.length_nil] at hbefore hafter hsteps
        omega

theorem greedyOrder_selects {answer : Option Plan} (h : g.Holds members) (hne : ∃ i, i ∈ members)
    (hrun : greedyOrder cost (g.plansOf members) = .ok answer) : g.Selects cost members answer := by
  have hpending := pending_select h
  have hmap : (g.plansOf members).map (fun p => ({ plan := p, cost := cost p } : Candidate)) =
      (g.select members).map (candidateOf cost) := by
    rw [plansOf, List.map_map]
    rfl
  simp only [greedyOrder, hmap] at hrun
  split at hrun
  · next htake =>
    cases hrun
    obtain ⟨i, hi⟩ := hne
    obtain ⟨p, hp⟩ := exists_node (h i hi)
    exact hpending.stuck (List.ne_nil_of_mem (mem_select.2 ⟨hi, hp⟩)) .start htake
  · next first rest htake =>
    obtain ⟨i, ms, hnext, rfl, hpending⟩ :=
      hpending.exists_next none (fun _ _ => Candidate.noDearer_iff) htake
    refine joinRest_selects ?_ hpending (.first hnext) hrun
    rw [List.length_map]

theorem Picks.leftDeep {is : List Nat} (h : g.Picks cost members is (some p)) :
    ∃ first rest, (first :: rest).map some = is.map g.node? ∧
      Plan.leftDeep? first rest = .ok p := by
  generalize hmade : some p = made at h
  induction h generalizing p with
  | start => cases hmade
  | @first i q hnext =>
    cases hmade
    exact ⟨q, [], by simp [hnext.1.node], rfl⟩
  | @next taken current i q joined _ hnext hjoin ih =>
    cases hmade
    obtain ⟨first, rest, hnodes, hcurrent⟩ := ih rfl
    refine ⟨first, rest ++ [q], ?_, (Plan.leftDeep?_concat hcurrent).trans hjoin⟩
    rw [← List.cons_append, List.map_append, hnodes, List.map_append, List.map_singleton,
      List.map_singleton, hnext.1.node]

end JoinGraph

namespace Strategy

/-- A greedy plan joins the members in an order in which each one is the least of those that were ready. There
is none only if the set is empty or if none of the members that are left is ready. -/
theorem greedyBy_selects (cost : Plan → Cardinality) (g : JoinGraph) (s : NodeSet) (hs : g.Owns s) :
    ∃ answer, greedyBy cost g s = .ok answer ∧
      (∀ p, answer = some p → ∃ is, is.Perm s.members.toList ∧
        g.Picks cost s.members is (some p) ∧
        ∃ first rest, (first :: rest).map some = is.map g.node? ∧
          Plan.leftDeep? first rest = .ok p) ∧
      (answer = none → (∀ i, i ∉ s.members) ∨ ∃ is current, g.Picks cost s.members is current ∧
        (∃ i ∈ s.members, i ∉ is) ∧ ∀ i p, ¬g.Available s.members is current i p) := by
  obtain ⟨answer, hrun⟩ : ∃ answer, greedyOrder cost (g.plansOf s.members) = .ok answer := by
    rcases greedyOrder_cases cost (g.plansOf s.members) with ⟨p, hp, _⟩ | ⟨hnone, _⟩
    · exact ⟨some p, hp⟩
    · exact ⟨none, hnone⟩
  have hanswer : greedyBy cost g s = .ok answer := by
    rw [greedyBy_eq cost hs, hrun]
    rfl
  refine ⟨answer, hanswer, ?_⟩
  by_cases hne : ∃ i, i ∈ s.members
  · cases JoinGraph.greedyOrder_selects hs.holds hne hrun with
    | plan hpicks hall =>
      refine ⟨?_, fun h => absurd h (Option.some_ne_none _)⟩
      rintro _ ⟨⟩
      exact ⟨_, hall, hpicks, hpicks.leftDeep⟩
    | stuck hpicks hmem hleft hnone =>
      refine ⟨fun p h => absurd h.symm (Option.some_ne_none p), fun _ => .inr ?_⟩
      exact ⟨_, _, hpicks, ⟨_, hmem, hleft⟩, hnone⟩
  · have hempty : ∀ i, i ∉ s.members := fun i hi => hne ⟨i, hi⟩
    have hplans : g.plansOf s.members = [] := by
      rw [JoinGraph.plansOf_eq_filterMap, WordSet.toList_eq_nil_iff.2 hempty, List.filterMap_nil]
    rw [hplans] at hrun
    cases hrun
    exact ⟨fun p h => absurd h.symm (Option.some_ne_none p), fun _ => .inl hempty⟩

/-- The fourth hop is the cheapest one. -/
def fourthCheapest (p : Plan) : Cardinality :=
  .ofNat (if p = .source (.hop "d" ⟨"v3"⟩ ⟨"v4"⟩) then 1 else 2)

/-- The fourth hop comes first and is followed by the fifth one, with which it can be joined. -/
theorem row_greedyBy_selects :
    (∃ p, greedyBy fourthCheapest Row.graph (Row.graph.setOf [0, 1, 3, 4]) = .ok (some p) ∧
      p.leaves.map Fragment.source = ["d", "e", "a", "b"] ∧
      ∃ is, is.Perm [0, 1, 3, 4] ∧
        Row.graph.Picks fourthCheapest (.ofList [0, 1, 3, 4]) is (some p) ∧
        ∃ first rest, (first :: rest).map some = is.map Row.graph.node? ∧
          Plan.leftDeep? first rest = .ok p) ∧
    ∃ is current, Lookups.graph.Picks Plan.estimate (.ofList [0, 1]) is current ∧
      (∃ i ∈ WordSet.ofList [0, 1], i ∉ is) ∧
      ∀ i p, ¬Lookups.graph.Available (.ofList [0, 1]) is current i p := by
  constructor
  · have hs : Row.graph.Owns (Row.graph.setOf [0, 1, 3, 4]) := JoinGraph.owns_setOf (by decide)
    have hlist : (WordSet.ofList [0, 1, 3, 4]).toList = [0, 1, 3, 4] := by decide +kernel
    have hleaves : ((greedyBy fourthCheapest Row.graph
        (Row.graph.setOf [0, 1, 3, 4])).toOption.bind id).map
          (·.leaves.map Fragment.source) = some ["d", "e", "a", "b"] := by decide +kernel
    obtain ⟨answer, hanswer, hplan, _⟩ := greedyBy_selects fourthCheapest _ _ hs
    rw [hanswer] at hleaves
    obtain ⟨p, rfl, hp⟩ := Option.map_eq_some_iff.1 hleaves
    obtain ⟨is, hall, hpicks⟩ := hplan p rfl
    exact ⟨p, hanswer, hp, is, hlist ▸ hall, hpicks⟩
  · have hs : Lookups.graph.Owns (Lookups.graph.setOf [0, 1]) := JoinGraph.owns_setOf (by decide)
    have hnone : greedy Lookups.graph (Lookups.graph.setOf [0, 1]) = .ok none := by decide +kernel
    obtain ⟨answer, hanswer, _, hstuck⟩ := greedyBy_selects Plan.estimate _ _ hs
    have hempty : answer = none := Except.ok.inj (hanswer.symm.trans hnone)
    exact (hstuck hempty).resolve_left fun h => h 0 (by decide)

end Strategy

end FedPlan
