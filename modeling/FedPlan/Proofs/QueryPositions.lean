import FedPlan.Proofs.Component.Coverage
import FedPlan.Proofs.Hops
import Mathlib.Data.List.Induction

/-!
# Positions of patterns

A query numbers its patterns in the order in which they appear first. A repetition takes no number, and
patterns that are given later do not change the numbers of earlier ones.
-/

namespace FedPlan

theorem pairwise_idxOf_eraseDups {α : Type} [DecidableEq α] (xs : List α) :
    xs.eraseDups.Pairwise fun a b => xs.idxOf a < xs.idxOf b := by
  -- Values that are put at the end leave the first places of the others as they are.
  induction xs using List.reverseRecOn with
  | nil => simp
  | append_singleton xs x ih =>
    have hplace : ∀ a ∈ xs.eraseDups, (xs ++ [x]).idxOf a = xs.idxOf a := fun a ha =>
      List.idxOf_append_of_mem (List.mem_eraseDups.1 ha)
    have hold : xs.eraseDups.Pairwise fun a b => (xs ++ [x]).idxOf a < (xs ++ [x]).idxOf b := by
      apply ih.imp_of_mem
      intro a b ha hb hlt
      rwa [hplace a ha, hplace b hb]
    rw [eraseDups_concat]
    split
    · exact hold
    · next hx =>
      refine List.pairwise_append.2 ⟨hold, List.pairwise_singleton _ x, ?_⟩
      intro a ha b hb
      have hlt := List.idxOf_lt_length_of_mem (List.mem_eraseDups.1 ha)
      rw [List.mem_singleton.1 hb, hplace a ha, List.idxOf_append_of_notMem hx]
      omega

namespace Query

variable {xs : List TriplePattern} {t : TriplePattern}

@[simp] theorem mem_triples_ofList : t ∈ (ofList xs).triples ↔ t ∈ xs := List.mem_eraseDups

theorem position?_eq_none_iff {q : Query} : q.position? t = none ↔ t ∉ q.triples :=
  List.idxOf?_eq_none_iff

theorem triples_ofList_append (xs ys : List TriplePattern) :
    ∃ later, (ofList (xs ++ ys)).triples = (ofList xs).triples ++ later :=
  ⟨_, List.eraseDups_append⟩

theorem position?_ofList_append (ys : List TriplePattern) (h : t ∈ xs) :
    (ofList (xs ++ ys)).position? t = (ofList xs).position? t := by
  obtain ⟨later, hlater⟩ := triples_ofList_append xs ys
  obtain ⟨n, hn⟩ := Option.isSome_iff_exists.1 (List.isSome_idxOf?.2 (mem_triples_ofList.2 h))
  have hat : (ofList xs).position? t = some n := hn
  have hplace := position?_eq_some_iff.1 hat
  have hlt : n < (ofList xs).triples.length := (List.getElem?_eq_some_iff.1 hplace).1
  rw [hat, position?_eq_some_iff, hlater, List.getElem?_append_left hlt, hplace]

/-- A query has each given pattern once, in the order of first appearance. The position of a pattern is its
place there, whatever is given in addition. -/
theorem ofList_numbers (xs ys : List TriplePattern) (t : TriplePattern) :
    (ofList xs).triples.Nodup ∧
    (∀ u, u ∈ (ofList xs).triples ↔ u ∈ xs) ∧
    (ofList xs).triples.Pairwise (fun a b => xs.idxOf a < xs.idxOf b) ∧
    (∀ i, (ofList xs).position? t = some i ↔ (ofList xs).triples[i]? = some t) ∧
    ((ofList xs).position? t = none ↔ t ∉ xs) ∧
    (t ∈ xs → (ofList (xs ++ ys)).position? t = (ofList xs).position? t) ∧
    ofList (ofList xs).triples = ofList xs ∧
    ∀ v, v ∈ (ofList xs).vars ↔
      ∃ u ∈ xs, u.subject = .var v ∨ u.predicate = .var v ∨ u.object = .var v := by
  refine ⟨nodup_eraseDups xs, fun u => mem_triples_ofList, pairwise_idxOf_eraseDups xs,
    fun i => position?_eq_some_iff, ?_, position?_ofList_append ys, ?_, fun v => ?_⟩
  · rw [position?_eq_none_iff, mem_triples_ofList]
  · simp only [ofList, eraseDups_of_nodup (nodup_eraseDups xs)]
  · simp only [vars, VarSet.mem_ofList, List.mem_flatMap, mem_triples_ofList, TriplePattern.mem_vars]

end Query

/-- The first hop is given twice before the second one, and the third one is added afterwards. -/
theorem Chain.second_keeps_position :
    (⟨.var ⟨"x"⟩, .iri ⟨"b"⟩, .var ⟨"y"⟩⟩ : TriplePattern) ∈
      first.triples ++ first.triples ++ second.triples ∧
    (Query.ofList (first.triples ++ first.triples ++ second.triples ++ third.triples)).position?
      ⟨.var ⟨"x"⟩, .iri ⟨"b"⟩, .var ⟨"y"⟩⟩ = some 1 := by
  have hmem : (⟨.var ⟨"x"⟩, .iri ⟨"b"⟩, .var ⟨"y"⟩⟩ : TriplePattern) ∈
      first.triples ++ first.triples ++ second.triples := by decide +kernel
  obtain ⟨_, _, _, hposition, _, hstable, _⟩ := Query.ofList_numbers _ third.triples _
  refine ⟨hmem, ?_⟩
  rw [hstable hmem, hposition]
  decide +kernel

end FedPlan
