import FedPlan.Rdf.Term

/-!
# Sets of variables

A set of variables is its strictly ascending list, so two sets with the same members are equal
and every traversal follows the order of the names.
-/

namespace FedPlan

structure VarSet where
  toList : List Variable
  sorted : toList.Pairwise (· < ·)
deriving DecidableEq

namespace VarSet

instance : Membership Variable VarSet := ⟨fun s v => v ∈ s.toList⟩

instance (v : Variable) (s : VarSet) : Decidable (v ∈ s) :=
  inferInstanceAs (Decidable (v ∈ s.toList))

theorem mem_toList {v : Variable} {s : VarSet} : v ∈ s.toList ↔ v ∈ s := Iff.rfl

instance : EmptyCollection VarSet := ⟨⟨[], .nil⟩⟩

def isEmpty (s : VarSet) : Bool := s.toList.isEmpty

def size (s : VarSet) : Nat := s.toList.length

def insertSorted (v : Variable) : List Variable → List Variable
  | [] => [v]
  | w :: ws => if v < w then v :: w :: ws else if w < v then w :: insertSorted v ws else w :: ws

private theorem mem_insertSorted {x v : Variable} {ws : List Variable} :
    x ∈ insertSorted v ws ↔ x = v ∨ x ∈ ws := by
  induction ws with
  | nil => simp [insertSorted]
  | cons w ws ih =>
    rw [insertSorted]
    split
    · simp
    · split
      · simp only [List.mem_cons, ih]
        exact or_left_comm
      · have : v = w := Variable.eq_of_not_lt ‹_› ‹_›
        simp [this]

private theorem sorted_insertSorted (v : Variable) {ws : List Variable}
    (h : ws.Pairwise (· < ·)) : (insertSorted v ws).Pairwise (· < ·) := by
  induction ws with
  | nil => simp [insertSorted]
  | cons w ws ih =>
    obtain ⟨hw, hws⟩ := List.pairwise_cons.1 h
    rw [insertSorted]
    split
    · next hv =>
      refine List.pairwise_cons.2 ⟨?_, h⟩
      intro x hx
      rcases List.mem_cons.1 hx with rfl | hx
      · exact hv
      · exact Variable.lt_trans hv (hw x hx)
    · split
      · next hv =>
        refine List.pairwise_cons.2 ⟨?_, ih hws⟩
        intro x hx
        rcases mem_insertSorted.1 hx with rfl | hx
        · exact hv
        · exact hw x hx
      · exact h

def insert (s : VarSet) (v : Variable) : VarSet :=
  ⟨insertSorted v s.toList, sorted_insertSorted v s.sorted⟩

@[simp] theorem mem_insert {x v : Variable} {s : VarSet} : x ∈ s.insert v ↔ x = v ∨ x ∈ s :=
  mem_insertSorted

def insertAll (s : VarSet) (vs : List Variable) : VarSet := vs.foldl insert s

@[simp] theorem mem_insertAll {x : Variable} {s : VarSet} {vs : List Variable} :
    x ∈ s.insertAll vs ↔ x ∈ s ∨ x ∈ vs := by
  induction vs generalizing s with
  | nil => simp [insertAll]
  | cons v vs ih =>
    change x ∈ (s.insert v).insertAll vs ↔ _
    rw [ih, mem_insert, List.mem_cons, or_comm (a := x = v), or_assoc]

def ofList (vs : List Variable) : VarSet := insertAll ∅ vs

def filter (s : VarSet) (p : Variable → Bool) : VarSet :=
  ⟨s.toList.filter p, s.sorted.filter p⟩

@[simp] theorem mem_filter {x : Variable} {s : VarSet} {p : Variable → Bool} :
    x ∈ s.filter p ↔ x ∈ s ∧ p x = true :=
  List.mem_filter

instance : Union VarSet := ⟨fun s t => s.insertAll t.toList⟩

instance : Inter VarSet := ⟨fun s t => s.filter (· ∈ t)⟩

instance : SDiff VarSet := ⟨fun s t => s.filter (· ∉ t)⟩

@[simp] theorem not_mem_empty (x : Variable) : x ∉ (∅ : VarSet) := List.not_mem_nil

@[simp] theorem mem_ofList {x : Variable} {vs : List Variable} : x ∈ ofList vs ↔ x ∈ vs := by
  simp [ofList]

@[simp] theorem mem_union {x : Variable} {s t : VarSet} : x ∈ s ∪ t ↔ x ∈ s ∨ x ∈ t :=
  mem_insertAll

@[simp] theorem mem_inter {x : Variable} {s t : VarSet} : x ∈ s ∩ t ↔ x ∈ s ∧ x ∈ t := by
  change x ∈ s.filter _ ↔ _
  simp

@[simp] theorem mem_sdiff {x : Variable} {s t : VarSet} : x ∈ s \ t ↔ x ∈ s ∧ x ∉ t := by
  change x ∈ s.filter _ ↔ _
  simp

/-- Sets with the same members are the same set. -/
theorem ext {s t : VarSet} (h : ∀ v, v ∈ s ↔ v ∈ t) : s = t := by
  have nodup (u : VarSet) : u.toList.Nodup := by
    refine u.sorted.imp ?_
    intro a b hab he
    exact Variable.lt_irrefl b (he ▸ hab)
  have hperm : s.toList.Perm t.toList := (List.perm_ext_iff_of_nodup (nodup s) (nodup t)).2 h
  have hlist : s.toList = t.toList :=
    hperm.eq_of_pairwise
      (fun a b _ _ hab hba => absurd (Variable.lt_trans hab hba) (Variable.lt_irrefl a))
      s.sorted t.sorted
  cases s
  cases t
  cases hlist
  rfl

def text (s : VarSet) : String := " ".intercalate (s.toList.map Variable.text)

end VarSet

end FedPlan
