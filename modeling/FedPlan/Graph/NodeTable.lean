import FedPlan.Plan.Basic

/-!
# Node tables

A node table numbers plans in the order in which they are put in for the first time. Beside the plans
it keeps an index that gives the position of each of them, and the two always agree: no plan stands at
two positions, and each one is found at its position.
-/

namespace FedPlan

structure NodeTable where
  nodes : List Plan
  index : List (Plan × Nat)
  lookup_iff : ∀ p i, index.lookup p = some i ↔ nodes[i]? = some p

namespace NodeTable

def empty : NodeTable := ⟨[], [], by simp⟩

/-- No plan stands at two positions, because the index has only one of them. -/
theorem nodup (t : NodeTable) : t.nodes.Nodup := by
  apply List.pairwise_iff_getElem.2
  intro i j hi hj hlt he
  have hfirst := (t.lookup_iff t.nodes[i] i).2 (List.getElem?_eq_getElem hi)
  have hsecond := (t.lookup_iff t.nodes[j] j).2 (List.getElem?_eq_getElem hj)
  rw [he, hsecond, Option.some_inj] at hfirst
  omega

private theorem getElem?_append_iff {nodes : List Plan} {p q : Plan} {i : Nat} :
    (nodes ++ [p])[i]? = some q ↔ nodes[i]? = some q ∨ i = nodes.length ∧ p = q := by
  rw [List.getElem?_append]
  split
  · next hi => simp [Nat.ne_of_lt hi]
  · next hi =>
    have hnone : nodes[i]? = none := List.getElem?_eq_none (Nat.le_of_not_lt hi)
    simp only [hnone, List.getElem?_singleton, reduceCtorEq, false_or]
    split
    · next h0 => simp [show i = nodes.length by omega]
    · next h0 => simp [show i ≠ nodes.length by omega]

private theorem lookup_cons_iff (t : NodeTable) {p : Plan} (hnew : t.index.lookup p = none)
    (q : Plan) (i : Nat) : ((p, t.nodes.length) :: t.index).lookup q = some i ↔
      (t.nodes ++ [p])[i]? = some q := by
  rw [getElem?_append_iff, ← t.lookup_iff]
  by_cases hq : q = p
  · simp [hq, hnew, eq_comm]
  · have hne : (q == p) = false := beq_eq_false_iff_ne.2 hq
    simp [List.lookup_cons, hne, Ne.symm hq]

/-- Puts a new plan behind the others. -/
def append (t : NodeTable) (p : Plan) (hnew : t.index.lookup p = none) : NodeTable where
  nodes := t.nodes ++ [p]
  index := (p, t.nodes.length) :: t.index
  lookup_iff := lookup_cons_iff t hnew

/-- The table with the plan in it, and the position of the plan. A plan that is there already keeps
its position. -/
def push (t : NodeTable) (p : Plan) : NodeTable × Nat :=
  match h : t.index.lookup p with
  | some i => (t, i)
  | none => (t.append p h, t.nodes.length)

def pushAll (t : NodeTable) : List Plan → NodeTable × List Nat
  | [] => (t, [])
  | p :: ps =>
    let (t, i) := t.push p
    let (t, is) := t.pushAll ps
    (t, i :: is)

/-! ## What is put in -/

theorem lookup_eq_none_iff {t : NodeTable} {p : Plan} :
    t.index.lookup p = none ↔ p ∉ t.nodes := by
  simp [Option.eq_none_iff_forall_ne_some, t.lookup_iff, List.mem_iff_getElem?]

theorem nodes_push (t : NodeTable) (p : Plan) :
    (t.push p).1.nodes = if p ∈ t.nodes then t.nodes else t.nodes ++ [p] := by
  rw [push]
  split
  · next i h => rw [if_pos (List.mem_of_getElem? ((t.lookup_iff p i).1 h))]
  · next h => rw [if_neg (lookup_eq_none_iff.1 h), append]

/-- The position that is returned is that of the plan, be it new or not. -/
theorem getElem?_push (t : NodeTable) (p : Plan) : (t.push p).1.nodes[(t.push p).2]? = some p := by
  rw [push]
  split
  · next i h => exact (t.lookup_iff p i).1 h
  · exact List.getElem?_concat_length

/-- A plan keeps its position while others are put behind it. -/
theorem getElem?_of_prefix {nodes nodes' : List Plan} {p : Plan} {i : Nat} (h : nodes <+: nodes')
    (hp : nodes[i]? = some p) : nodes'[i]? = some p := by
  obtain ⟨hlt, hat⟩ := List.getElem?_eq_some_iff.1 hp
  rw [List.prefix_iff_getElem?.1 h i hlt, hat]

theorem prefix_push (t : NodeTable) (p : Plan) : t.nodes <+: (t.push p).1.nodes := by
  rw [nodes_push]
  split
  · exact List.prefix_rfl
  · exact List.prefix_append ..

theorem prefix_pushAll (t : NodeTable) (ps : List Plan) : t.nodes <+: (t.pushAll ps).1.nodes := by
  induction ps generalizing t with
  | nil => exact List.prefix_rfl
  | cons p ps ih => exact (t.prefix_push p).trans (ih _)

/-- The positions that are returned are those of the plans, after all of them were put in. -/
theorem getElem?_pushAll (t : NodeTable) (ps : List Plan) :
    (t.pushAll ps).2.map ((t.pushAll ps).1.nodes[·]?) = ps.map some := by
  induction ps generalizing t with
  | nil => rfl
  | cons p ps ih =>
    have hhead : ((t.push p).1.pushAll ps).1.nodes[(t.push p).2]? = some p :=
      getElem?_of_prefix ((t.push p).1.prefix_pushAll ps) (t.getElem?_push p)
    rw [pushAll, List.map_cons, List.map_cons, hhead, ih]

/-- The nodes stay in the order of their first appearance. -/
theorem nodes_push_eq_eraseDups {t : NodeTable} {given : List Plan}
    (h : t.nodes = given.eraseDups) (p : Plan) :
    (t.push p).1.nodes = (given ++ [p]).eraseDups := by
  rw [nodes_push, eraseDups_concat, h]
  by_cases hp : p ∈ given
  · simp [hp]
  · simp [hp]

theorem nodes_pushAll_eq_eraseDups {t : NodeTable} {given : List Plan}
    (h : t.nodes = given.eraseDups) (ps : List Plan) :
    (t.pushAll ps).1.nodes = (given ++ ps).eraseDups := by
  induction ps generalizing t given with
  | nil => rw [List.append_nil, pushAll, h]
  | cons p ps ih =>
    rw [List.append_cons]
    exact ih (nodes_push_eq_eraseDups h p)

end NodeTable

end FedPlan
