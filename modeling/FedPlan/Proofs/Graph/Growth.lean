import FedPlan.Proofs.Graph.Adjacency
import FedPlan.Proofs.WordSet.Counting
import Mathlib.Data.List.Basic

/-!
# Nodes and growth

The nodes of a graph and the plans of a set of nodes are read by position. A graph that grows keeps
the old nodes at their positions, so what is said about sets of old nodes stays true.
-/

namespace FedPlan

theorem idxOf?_eq_some_iff_getElem? {α : Type} [DecidableEq α] {xs : List α} {x : α} {n : Nat}
    (h : xs.Nodup) : xs.idxOf? x = some n ↔ xs[n]? = some x := by
  have hat : ∀ m, xs.idxOf? x = some m → xs[m]? = some x := by
    intro m hm
    obtain ⟨hlt, hmx, _⟩ := List.idxOf?_eq_some_iff.1 hm
    rw [List.getElem?_eq_getElem hlt, hmx]
  refine ⟨hat n, fun hn => ?_⟩
  obtain ⟨m, hm⟩ := Option.isSome_iff_exists.1 (List.isSome_idxOf?.2 (List.mem_of_getElem? hn))
  have hlt : m < xs.length := (List.getElem?_eq_some_iff.1 (hat m hm)).1
  rw [hm, (List.getElem?_inj hlt h).1 ((hat m hm).trans hn.symm)]

namespace JoinGraph

variable {g g' g'' : JoinGraph} {i j : Nat} {p q : Plan} {members : WordSet} {s : NodeSet}

/-! ## Nodes -/

theorem lt_size_of_node? (h : g.node? i = some p) : i < g.size :=
  (List.getElem?_eq_some_iff.1 h).1

theorem exists_node (h : i < g.size) : ∃ p, g.node? i = some p :=
  ⟨g.nodes.get ⟨i, h⟩, List.getElem?_eq_getElem h⟩

theorem position_unique (hi : g.node? i = some p) (hj : g.node? j = some p) : i = j :=
  (List.getElem?_inj (lt_size_of_node? hi) g.nodup).1 (hi.trans hj.symm)

theorem position?_eq_some_iff : g.position? p = some i ↔ g.node? i = some p := g.lookup_iff p i

/-- The node at a position matches a pattern. -/
def Matches (g : JoinGraph) (i : Nat) (t : TriplePattern) : Prop :=
  ∃ p, g.node? i = some p ∧ t ∈ p.triples

/-- No pattern is matched by two members. -/
def PatternsApart (g : JoinGraph) (members : WordSet) : Prop :=
  ∀ i ∈ members, ∀ j ∈ members, ∀ t, g.Matches i t → g.Matches j t → i = j

/-- The node at a position needs a variable. -/
def Needs (g : JoinGraph) (i : Nat) (v : Variable) : Prop :=
  ∃ p, g.node? i = some p ∧ v ∈ p.required

/-- The node at a position binds a variable. -/
def Binds (g : JoinGraph) (i : Nat) (v : Variable) : Prop :=
  ∃ p, g.node? i = some p ∧ v ∈ p.results

theorem mem_neighbors : j ∈ g.neighbors i ↔
    i ≠ j ∧ ∃ p q, g.node? i = some p ∧ g.node? j = some q ∧ p.canJoin q = true := by
  rw [neighbors, g.adjacency_eq, mem_adjacencyOf]
  rfl

theorem mem_neighbors_comm : j ∈ g.neighbors i ↔ i ∈ g.neighbors j := by
  have hsymm : ∀ i j, j ∈ g.neighbors i → i ∈ g.neighbors j := by
    intro i j h
    obtain ⟨hne, p, q, hp, hq, hjoin⟩ := mem_neighbors.1 h
    exact mem_neighbors.2 ⟨hne.symm, q, p, hq, hp, by rwa [Plan.canJoin_comm]⟩
  exact ⟨hsymm i j, hsymm j i⟩

theorem lt_size_of_mem_neighbors (h : j ∈ g.neighbors i) : i < g.size ∧ j < g.size := by
  obtain ⟨_, p, q, hp, hq, _⟩ := mem_neighbors.1 h
  exact ⟨lt_size_of_node? hp, lt_size_of_node? hq⟩

/-! ## Sets of nodes -/

/-- Each member is the position of a node. -/
def Holds (g : JoinGraph) (members : WordSet) : Prop := ∀ i ∈ members, i < g.size

/-- The set belongs to the graph, and each member is the position of a node. -/
structure Owns (g : JoinGraph) (s : NodeSet) : Prop where
  owner : s.owner = g.id
  holds : g.Holds s.members

theorem owns_own (h : g.Holds members) : g.Owns (g.own members) := ⟨rfl, h⟩

theorem owns_setOf {positions : List Nat} (h : ∀ i ∈ positions, i < g.size) :
    g.Owns (g.setOf positions) :=
  owns_own fun i hi => h i (WordSet.mem_ofList.1 hi)

/-- The plans of the members, in ascending order of the positions. -/
def plansOf (g : JoinGraph) (members : WordSet) : List Plan := (g.select members).map (·.2)

theorem plansOf_eq_filterMap (g : JoinGraph) (members : WordSet) :
    g.plansOf members = members.toList.filterMap g.node? := by
  simp only [plansOf, select, List.map_filterMap, Option.map_map]
  congr 1
  funext i
  cases g.node? i <;> rfl

theorem mem_plansOf : p ∈ g.plansOf members ↔ ∃ i ∈ members, g.node? i = some p := by
  simp [plansOf_eq_filterMap]

theorem mem_select : (i, p) ∈ g.select members ↔ i ∈ members ∧ g.node? i = some p := by
  simp only [select, List.mem_filterMap, WordSet.mem_toList, Option.map_eq_some_iff, Prod.mk.injEq]
  constructor
  · intro h
    obtain ⟨j, hj, q, hq, rfl, rfl⟩ := h
    exact ⟨hj, hq⟩
  · intro h
    exact ⟨i, h.1, p, h.2, rfl, rfl⟩

theorem map_some_plansOf (h : g.Holds members) :
    (g.plansOf members).map some = members.toList.map g.node? := by
  have hall : ∀ is : List Nat, (∀ i ∈ is, i < g.size) →
      (is.filterMap g.node?).map some = is.map g.node? := by
    intro is his
    induction is with
    | nil => rfl
    | cons i is ih =>
      obtain ⟨p, hp⟩ := exists_node (his i List.mem_cons_self)
      rw [List.filterMap_cons_some hp, List.map_cons, List.map_cons, hp,
        ih fun j hj => his j (List.mem_cons_of_mem i hj)]
  rw [plansOf_eq_filterMap]
  exact hall _ fun i hi => h i (WordSet.mem_toList.1 hi)

theorem length_plansOf (h : g.Holds members) : (g.plansOf members).length = members.size := by
  have hlen := congrArg List.length (map_some_plansOf h)
  rwa [List.length_map, List.length_map, ← WordSet.size_eq_length] at hlen

theorem getElem?_plansOf (h : g.Holds members) {k : Nat} (hi : members.toList[k]? = some i) :
    (g.plansOf members)[k]? = g.node? i := by
  have hat := congrArg (·[k]?) (map_some_plansOf h)
  simp only [List.getElem?_map, hi, Option.map_some, Option.map_eq_some_iff] at hat
  obtain ⟨p, hp, he⟩ := hat
  rw [hp, he]

theorem plansOf_perm_of_subset {t : WordSet} (h : ∀ n ∈ t, n ∈ members) :
    (g.plansOf members).Perm (g.plansOf (members \ t) ++ g.plansOf t) := by
  simp only [plansOf_eq_filterMap, ← List.filterMap_append]
  exact (WordSet.toList_perm_of_subset h).filterMap _

theorem plansOf_insert_perm (hp : g.node? i = some p) (h : i ∉ members) :
    (g.plansOf (members.insert i)).Perm (p :: g.plansOf members) := by
  simp only [plansOf_eq_filterMap]
  rw [← List.filterMap_cons_some hp]
  exact (WordSet.toList_insert_perm h).filterMap _

theorem plansOf_erase_perm (hp : g.node? i = some p) (h : i ∈ members) :
    (g.plansOf members).Perm (p :: g.plansOf (members.erase i)) := by
  have hinsert := plansOf_insert_perm hp (show i ∉ members.erase i by simp)
  rwa [WordSet.insert_erase h] at hinsert

/-! ## Checked access -/

theorem stray?_eq_none_iff : g.stray? s = none ↔ g.Holds s.members := by
  simp [stray?, Holds]

theorem requireMember_eq_ok (h : g.Owns s) : g.requireMember s = .ok () := by
  rw [requireMember, if_neg (not_not_intro h.owner), stray?_eq_none_iff.2 h.holds]
  rfl

theorem owns_of_requireMember (h : g.requireMember s = .ok ()) : g.Owns s := by
  rw [requireMember] at h
  split at h
  · cases h
  · next howner =>
    split at h
    · cases h
    · next hstray =>
      rw [Bool.not_eq_true, Option.isSome_eq_false_iff, Option.isNone_iff_eq_none] at hstray
      exact ⟨not_not.1 howner, stray?_eq_none_iff.1 hstray⟩

theorem membersOf_eq_ok (h : g.Owns s) : g.membersOf s = .ok (g.plansOf s.members) := by
  rw [membersOf, requireMember_eq_ok h]
  rfl

/-! ## Growth -/

/-- The second graph is the first one with more nodes behind the old ones. -/
structure Grows (g g' : JoinGraph) : Prop where
  id_eq : g'.id = g.id
  nodes_prefix : g.nodes <+: g'.nodes

namespace Grows

theorem refl (g : JoinGraph) : g.Grows g := ⟨rfl, List.prefix_rfl⟩

theorem trans (h : g.Grows g') (h' : g'.Grows g'') : g.Grows g'' :=
  ⟨h'.id_eq.trans h.id_eq, h.nodes_prefix.trans h'.nodes_prefix⟩

theorem size_le (h : g.Grows g') : g.size ≤ g'.size := h.nodes_prefix.length_le

theorem node?_eq (h : g.Grows g') (hi : i < g.size) : g'.node? i = g.node? i := by
  obtain ⟨more, hmore⟩ := h.nodes_prefix
  rw [node?, ← hmore, List.getElem?_append_left hi, node?]

theorem node?_eq_some (h : g.Grows g') (hp : g.node? i = some p) : g'.node? i = some p :=
  NodeTable.getElem?_of_prefix h.nodes_prefix hp

theorem mem_neighbors_iff (h : g.Grows g') (hi : i < g.size) (hj : j < g.size) :
    j ∈ g'.neighbors i ↔ j ∈ g.neighbors i := by
  rw [mem_neighbors, mem_neighbors, h.node?_eq hi, h.node?_eq hj]

theorem matches_iff (h : g.Grows g') (hi : i < g.size) {t : TriplePattern} :
    g'.Matches i t ↔ g.Matches i t := by
  rw [Matches, Matches, h.node?_eq hi]

theorem holds (h : g.Grows g') (hs : g.Holds members) : g'.Holds members :=
  fun i hi => Nat.lt_of_lt_of_le (hs i hi) h.size_le

theorem owns (h : g.Grows g') (hs : g.Owns s) : g'.Owns s :=
  ⟨hs.owner.trans h.id_eq.symm, h.holds hs.holds⟩

theorem plansOf_eq (h : g.Grows g') (hs : g.Holds members) :
    g'.plansOf members = g.plansOf members := by
  rw [plansOf_eq_filterMap, plansOf_eq_filterMap]
  apply List.filterMap_congr
  intro i hi
  exact h.node?_eq (hs i (WordSet.mem_toList.1 hi))

end Grows

theorem addAll_grows (g : JoinGraph) (ps : List Plan) : g.Grows (g.addAll ps).1 :=
  ⟨rfl, g.prefix_pushAll ps⟩

theorem add_grows (g : JoinGraph) (p : Plan) : g.Grows (g.add p).1 := ⟨rfl, g.prefix_push p⟩

theorem mem_nodes_add : q ∈ (g.add p).1.nodes ↔ q ∈ g.nodes ∨ q = p := by
  show q ∈ (g.push p).1.nodes ↔ _
  rw [NodeTable.nodes_push]
  split
  · next hp =>
    constructor
    · exact Or.inl
    · rintro (hq | rfl)
      · exact hq
      · exact hp
  · simp

theorem node?_add (g : JoinGraph) (p : Plan) : (g.add p).1.node? (g.add p).2 = some p :=
  g.getElem?_push p

end JoinGraph

end FedPlan
