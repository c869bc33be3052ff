import FedPlan.Proofs.Graph.Chains
import FedPlan.Sharing.Overlap

/-!
# Disjoint shared subsets

Recording a candidate only takes members away from it and from what is recorded, so the recorded
subsets stay disjoint. Splitting keeps them disjoint, and afterwards each of the given sets has all
members of a subset or none.
-/

namespace FedPlan

namespace WordSet

variable {s s' t t' : WordSet}

/-- The sets have no common member. -/
def Apart (s t : WordSet) : Prop := ∀ n ∈ s, n ∉ t

theorem Apart.symm (h : s.Apart t) : t.Apart s := fun n ht hs => h n hs ht

theorem Apart.mono (h : s.Apart t) (hs : ∀ n ∈ s', n ∈ s) (ht : ∀ n ∈ t', n ∈ t) : s'.Apart t' :=
  fun n hn hn' => h n (hs n hn) (ht n hn')

theorem apart_sdiff_left (s t : WordSet) : (s \ t).Apart t := fun _ hn => (mem_sdiff.1 hn).2

end WordSet

theorem forall_mem_pairs_iff {α : Type} {xs : List α} {R : α → α → Prop} :
    (∀ x ∈ pairs xs, R x.1 x.2) ↔ xs.Pairwise R := by
  induction xs with
  | nil => simp [pairs]
  | cons a xs ih =>
    rw [pairs, List.forall_mem_append, ih, List.pairwise_cons, List.forall_mem_map]

theorem mem_pairs_iff {α : Type} {xs : List α} {x : α × α} :
    x ∈ pairs xs ↔ ∃ i j : Nat, i < j ∧ xs[i]? = some x.1 ∧ xs[j]? = some x.2 := by
  induction xs with
  | nil => simp [pairs]
  | cons a xs ih =>
    rw [pairs, List.mem_append, ih, List.mem_map]
    constructor
    · rintro (⟨b, hb, rfl⟩ | ⟨i, j, hlt, hi, hj⟩)
      · obtain ⟨j, hj⟩ := List.mem_iff_getElem?.1 hb
        exact ⟨0, j + 1, by omega, rfl, hj⟩
      · exact ⟨i + 1, j + 1, by omega, hi, hj⟩
    · rintro ⟨i, j, hlt, hi, hj⟩
      obtain ⟨j, rfl⟩ := Nat.exists_eq_succ_of_ne_zero (by omega : j ≠ 0)
      cases i with
      | zero => exact .inl ⟨x.2, List.mem_of_getElem? hj, by simpa [Prod.ext_iff] using hi⟩
      | succ i => exact .inr ⟨i, j, by omega, hi, hj⟩

theorem mem_of_mem_pairs {α : Type} {xs : List α} {x : α × α} (h : x ∈ pairs xs) :
    x.1 ∈ xs ∧ x.2 ∈ xs := by
  obtain ⟨i, j, _, hi, hj⟩ := mem_pairs_iff.1 h
  exact ⟨List.mem_of_getElem? hi, List.mem_of_getElem? hj⟩

namespace JoinGraph

variable {g : JoinGraph} {s c u w : WordSet} {rs : List WordSet} {sets : List NodeSet}

theorem isShareable_iff : g.isShareable s = true ↔ 2 ≤ s.size ∧ g.Connected s := by
  rw [isShareable, Bool.and_eq_true, decide_eq_true_eq, isConnected_iff]

/-! ## Settling -/

theorem subset_of_separate {larger smaller : WordSet} {l k : Option WordSet}
    (h : g.separate larger smaller = (l, k)) :
    (∀ u ∈ l, ∀ n ∈ u, n ∈ larger) ∧ ∀ w ∈ k, ∀ n ∈ w, n ∈ smaller := by
  rw [separate] at h
  split at h
  · cases h
    constructor
    · intro u hu
      cases hu
      exact fun n hn => hn
    · intro w hw n hn
      split at hw
      · cases hw
        exact (WordSet.mem_sdiff.1 hn).1
      · cases hw
  · cases h
    constructor
    · intro u hu
      cases hu
    · intro w hw
      cases hw
      exact fun n hn => hn

theorem apart_of_separate {larger smaller : WordSet} {l k : Option WordSet}
    (h : g.separate larger smaller = (l, k)) : ∀ u ∈ l, ∀ w ∈ k, u.Apart w := by
  rw [separate] at h
  intro u hu w hw
  split at h
  · cases h
    cases hu
    split at hw
    · cases hw
      exact (WordSet.apart_sdiff_left smaller larger).symm
    · cases hw
  · cases h
    cases hu

theorem isShareable_of_separate {larger smaller : WordSet} {l k : Option WordSet}
    (h : g.separate larger smaller = (l, k)) (hl : g.isShareable larger = true)
    (hk : g.isShareable smaller = true) :
    (∀ u ∈ l, g.isShareable u = true) ∧ ∀ w ∈ k, g.isShareable w = true := by
  rw [separate] at h
  split at h
  · cases h
    constructor
    · intro u hu
      cases hu
      exact hl
    · intro w hw
      split at hw
      · next hrest =>
        cases hw
        exact hrest
      · cases hw
  · cases h
    constructor
    · intro u hu
      cases hu
    · intro w hw
      cases hw
      exact hk

/-- What remains of a recorded subset and of a candidate. -/
structure Settled (g : JoinGraph) (s c : WordSet) (s' c' : Option WordSet) : Prop where
  recorded_subset : ∀ u ∈ s', ∀ n ∈ u, n ∈ s
  candidate_subset : ∀ w ∈ c', ∀ n ∈ w, n ∈ c
  apart : ∀ u ∈ s', ∀ w ∈ c', u.Apart w
  shareable : g.isShareable s = true → g.isShareable c = true →
    (∀ u ∈ s', g.isShareable u = true) ∧ ∀ w ∈ c', g.isShareable w = true

theorem settled {s' c' : Option WordSet} (h : g.settle s c = (s', c')) : g.Settled s c s' c' := by
  rw [settle] at h
  split at h
  · exact ⟨(subset_of_separate h).1, (subset_of_separate h).2, apart_of_separate h,
      isShareable_of_separate h⟩
  · have hswap : g.separate c s = (c', s') := by
      rw [← Prod.swap_swap (g.separate c s), h]
      rfl
    refine ⟨(subset_of_separate hswap).2, (subset_of_separate hswap).1, ?_, ?_⟩
    · intro u hu w hw
      exact (apart_of_separate hswap w hw u hu).symm
    · intro hs hc
      exact (isShareable_of_separate hswap hc hs).symm

/-! ## Recording -/

/-- Subsets that can be shared and have no member in common. -/
structure Family (g : JoinGraph) (cs : List WordSet) : Prop where
  shareable : ∀ c ∈ cs, g.isShareable c = true
  apart : cs.Pairwise WordSet.Apart

theorem family_cons : g.Family (c :: rs) ↔
    g.isShareable c = true ∧ (∀ t ∈ rs, c.Apart t) ∧ g.Family rs := by
  constructor
  · intro h
    obtain ⟨hc, hrs⟩ := List.forall_mem_cons.1 h.shareable
    obtain ⟨hapart, hpair⟩ := List.pairwise_cons.1 h.apart
    exact ⟨hc, hapart, hrs, hpair⟩
  · intro h
    obtain ⟨hc, hapart, hrs⟩ := h
    exact ⟨List.forall_mem_cons.2 ⟨hc, hrs.shareable⟩, List.pairwise_cons.2 ⟨hapart, hrs.apart⟩⟩

/-- What remains of a recorded subset and of a candidate that comes to it. -/
def encounter (g : JoinGraph) (s c : WordSet) : Option WordSet × Option WordSet :=
  if s.isDisjoint c then (some s, some c)
  else if s = c then (some s, none)
  else g.settle s c

theorem record_cons : g.record (s :: rs) c =
    (g.encounter s c).1.toList ++ (g.encounter s c).2.elim rs (g.record rs) := by
  rw [record, encounter]
  split
  · rfl
  · split
    · rfl
    · split
      · next hsettle => rw [hsettle, Option.elim_some]
      · next hsettle => rw [hsettle, Option.elim_none]

theorem settled_encounter (g : JoinGraph) (s c : WordSet) :
    g.Settled s c (g.encounter s c).1 (g.encounter s c).2 := by
  rw [encounter]
  split
  · next hdisj =>
    have hapart : s.Apart c := WordSet.isDisjoint_iff.1 hdisj
    exact ⟨by simp, by simp, by simpa using hapart, by simp_all⟩
  · split
    · exact ⟨by simp, by simp, by simp, by simp_all⟩
    · exact settled rfl

theorem subset_of_mem_record (hu : u ∈ g.record rs c) :
    (∀ n ∈ u, n ∈ c) ∨ ∃ t ∈ rs, ∀ n ∈ u, n ∈ t := by
  induction rs generalizing c with
  | nil =>
    rw [record, List.mem_singleton] at hu
    exact .inl (hu ▸ fun n hn => hn)
  | cons s rs ih =>
    have hset := settled_encounter g s c
    rw [record_cons, List.mem_append, Option.mem_toList] at hu
    rcases hu with hu | hu
    · exact .inr ⟨s, List.mem_cons_self, hset.recorded_subset u hu⟩
    · rcases hleft : (g.encounter s c).2 with _ | d
      · rw [hleft] at hu
        exact .inr ⟨u, List.mem_cons_of_mem s hu, fun n hn => hn⟩
      · rw [hleft] at hu
        rcases ih hu with hsub | ⟨t, ht, hsub⟩
        · exact .inl fun n hn => hset.candidate_subset d hleft n (hsub n hn)
        · exact .inr ⟨t, List.mem_cons_of_mem s ht, hsub⟩

theorem apart_of_mem_record (hrs : ∀ t ∈ rs, s.Apart t) (hc : s.Apart c)
    (hu : u ∈ g.record rs c) : s.Apart u := by
  rcases subset_of_mem_record hu with hsub | ⟨t, ht, hsub⟩
  · exact hc.mono (fun n hn => hn) hsub
  · exact (hrs t ht).mono (fun n hn => hn) hsub

theorem Family.nodup (h : g.Family rs) : rs.Nodup := by
  -- Subsets that can be shared are not empty, so disjoint ones are different.
  refine h.apart.imp_of_mem fun {c d} hc _ hapart he => ?_
  obtain ⟨n, hn, _⟩ := WordSet.exists_mem_of_two_le_size (isShareable_iff.1 (h.shareable c hc)).1
  exact hapart n hn (he ▸ hn)

theorem Family.append {ts : List WordSet} (h : g.Family rs) (ht : g.Family ts)
    (hapart : ∀ u ∈ rs, ∀ t ∈ ts, u.Apart t) : g.Family (rs ++ ts) :=
  ⟨List.forall_mem_append.2 ⟨h.shareable, ht.shareable⟩,
    List.pairwise_append.2 ⟨h.apart, ht.apart, hapart⟩⟩

theorem family_toList {o : Option WordSet} (h : ∀ u ∈ o, g.isShareable u = true) :
    g.Family o.toList := by
  cases o with
  | none => exact ⟨by simp, .nil⟩
  | some u => exact ⟨by simpa using h, List.pairwise_singleton _ _⟩

theorem Family.record (h : g.Family rs) (hc : g.isShareable c = true) :
    g.Family (g.record rs c) := by
  induction rs generalizing c with
  | nil => exact family_cons.2 ⟨hc, by simp, h⟩
  | cons s rs ih =>
    obtain ⟨hs, hapart, hrs⟩ := family_cons.1 h
    have hset := settled_encounter g s c
    have hshare := hset.shareable hs hc
    have hold : ∀ u ∈ (g.encounter s c).1, ∀ t ∈ rs, u.Apart t := fun u hu t ht =>
      (hapart t ht).mono (hset.recorded_subset u hu) fun n hn => hn
    rw [record_cons]
    rcases hleft : (g.encounter s c).2 with _ | d
    · refine (family_toList hshare.1).append hrs fun u hu => ?_
      exact hold u (Option.mem_toList.1 hu)
    · refine (family_toList hshare.1).append (ih hrs (hshare.2 d hleft)) fun u hu t ht => ?_
      have hu := Option.mem_toList.1 hu
      exact apart_of_mem_record (hold u hu) (hset.apart u hu d hleft) ht

theorem Family.recordAll {cs : List WordSet} (h : g.Family rs)
    (hcs : ∀ c ∈ cs, g.isShareable c = true) : g.Family (cs.foldl g.record rs) := by
  induction cs generalizing rs with
  | nil => exact h
  | cons c cs ih =>
    obtain ⟨hc, hcs⟩ := List.forall_mem_cons.1 hcs
    exact ih (h.record hc) hcs

theorem subset_of_mem_recordAll {cs : List WordSet} (hu : u ∈ cs.foldl g.record rs) :
    (∃ t ∈ rs, ∀ n ∈ u, n ∈ t) ∨ ∃ c ∈ cs, ∀ n ∈ u, n ∈ c := by
  induction cs generalizing rs with
  | nil => exact .inl ⟨u, hu, fun n hn => hn⟩
  | cons c cs ih =>
    rcases ih hu with ⟨t, ht, hsub⟩ | ⟨t, ht, hsub⟩
    · rcases subset_of_mem_record ht with hin | ⟨r, hr, hin⟩
      · exact .inr ⟨c, List.mem_cons_self, fun n hn => hin n (hsub n hn)⟩
      · exact .inl ⟨r, hr, fun n hn => hin n (hsub n hn)⟩
    · exact .inr ⟨t, List.mem_cons_of_mem c ht, hsub⟩

end JoinGraph

end FedPlan
