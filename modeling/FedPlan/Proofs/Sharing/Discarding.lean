import FedPlan.Proofs.Hops
import FedPlan.Proofs.Sharing.Disjointness
import Mathlib.Data.List.Forall2

/-!
# Discarded candidates

A candidate comes to one recorded subset after another. Some of them stand firm, and it loses members
to them or is discarded; others give way and lose members to it. A candidate that a subset has given
way to may be discarded by a later one. Then the first subset has lost its members to nothing.
-/

namespace FedPlan

namespace JoinGraph

variable {g : JoinGraph} {s c d u : WordSet} {rs ts kept : List WordSet}

/-! ## One recorded subset -/

/-- The recorded subset overlaps with the candidate and loses to it: it is the larger one, but not
connected without the other, or the smaller one, and the other is connected without it. -/
def GivesWay (g : JoinGraph) (s c : WordSet) : Prop :=
  ¬s.Apart c ∧ if c.size ≤ s.size then ¬g.Connected (s \ c) else g.Connected (c \ s)

theorem encounter_of_apart (h : s.Apart c) : g.encounter s c = (some s, some c) :=
  if_pos (WordSet.isDisjoint_iff.2 h)

theorem encounter_of_not_apart (h : ¬s.Apart c) (hne : s ≠ c) :
    g.encounter s c = g.settle s c := by
  rw [encounter, if_neg (mt WordSet.isDisjoint_iff.1 h), if_neg hne]

theorem not_givesWay_self (g : JoinGraph) (s : WordSet) : ¬g.GivesWay s s := by
  intro h
  have hconn : g.Connected (s \ s) := fun i hi => by simp at hi
  simp [GivesWay, hconn] at h

theorem sdiff_ne_of_not_apart (h : ¬s.Apart c) : s \ c ≠ s := by
  intro he
  exact h (he ▸ WordSet.apart_sdiff_left s c)

theorem GivesWay.encounter (h : g.GivesWay s c) :
    ∃ s', g.encounter s c = (s', some c) ∧ s' ≠ some s := by
  have hne : s ≠ c := fun he => not_givesWay_self g c (he ▸ h)
  obtain ⟨hover, hloses⟩ := h
  rw [encounter_of_not_apart hover hne, settle]
  split at hloses
  · next hsize =>
    rw [if_pos hsize, separate, if_neg (mt isConnected_iff.1 hloses)]
    exact ⟨none, rfl, by simp⟩
  · next hsize =>
    rw [if_neg hsize, separate, if_pos (isConnected_iff.2 hloses)]
    refine ⟨if g.isShareable (s \ c) then some (s \ c) else none, rfl, ?_⟩
    split
    · simpa using sdiff_ne_of_not_apart hover
    · simp

theorem encounter_of_not_givesWay (h : ¬g.GivesWay s c) : (g.encounter s c).1 = some s := by
  by_cases hapart : s.Apart c
  · rw [encounter_of_apart hapart]
  · by_cases he : s = c
    · rw [encounter, if_neg (mt WordSet.isDisjoint_iff.1 hapart), if_pos he]
    · rw [encounter_of_not_apart hapart he, settle]
      split
      · next hsize =>
        have hconn : g.Connected (s \ c) := by
          by_contra hnot
          exact h ⟨hapart, by rwa [if_pos hsize]⟩
        rw [separate, if_pos (isConnected_iff.2 hconn)]
      · next hsize =>
        have hnot : ¬g.Connected (c \ s) := fun hconn => h ⟨hapart, by rwa [if_neg hsize]⟩
        rw [separate, if_neg (mt isConnected_iff.1 hnot)]
        rfl

/-! ## All of them -/

/-- What is left of a candidate that has come to all of the recorded subsets; none if one of them has
discarded it. -/
def leftOf (g : JoinGraph) (rs : List WordSet) (c : WordSet) : Option WordSet :=
  rs.foldlM (fun c s => (g.encounter s c).2) c

/-- One of the recorded subsets gives way to what is left of the candidate when it comes there. -/
def Displaces (g : JoinGraph) (rs : List WordSet) (c : WordSet) : Prop :=
  ∃ before s after d, rs = before ++ s :: after ∧ g.leftOf before c = some d ∧ g.GivesWay s d

theorem leftOf_cons : g.leftOf (s :: rs) c = (g.encounter s c).2.bind (g.leftOf rs) := rfl

theorem leftOf_append : g.leftOf (rs ++ ts) c = (g.leftOf rs c).bind (g.leftOf ts) := by
  rw [leftOf, List.foldlM_append]
  rfl

theorem leftOf_of_apart (h : ∀ s ∈ rs, s.Apart c) : g.leftOf rs c = some c := by
  induction rs with
  | nil => rfl
  | cons s rs ih =>
    obtain ⟨hs, hrs⟩ := List.forall_mem_cons.1 h
    rw [leftOf_cons, encounter_of_apart hs, Option.bind_some, ih hrs]

theorem leftOf_spec (hrs : ∀ s ∈ rs, g.isShareable s = true) (hc : g.isShareable c = true)
    (hd : g.leftOf rs c = some d) : g.isShareable d = true ∧ ∀ n ∈ d, n ∈ c := by
  induction rs generalizing c with
  | nil =>
    cases hd
    exact ⟨hc, fun n hn => hn⟩
  | cons s rs ih =>
    obtain ⟨hs, hrs⟩ := List.forall_mem_cons.1 hrs
    have hset := settled_encounter g s c
    rw [leftOf_cons, Option.bind_eq_some_iff] at hd
    obtain ⟨e, he, hd⟩ := hd
    obtain ⟨hshare, hsub⟩ := ih hrs ((hset.shareable hs hc).2 e he) hd
    exact ⟨hshare, fun n hn => hset.candidate_subset e he n (hsub n hn)⟩

theorem not_displaces_nil : ¬g.Displaces [] c := by
  rintro ⟨before, s, after, _, he, _⟩
  simp at he

theorem displaces_cons : g.Displaces (s :: rs) c ↔
    g.GivesWay s c ∨ ∃ d, (g.encounter s c).2 = some d ∧ g.Displaces rs d := by
  constructor
  · rintro ⟨before, t, after, e, he, hleft, hway⟩
    cases before with
    | nil =>
      cases he
      cases hleft
      exact .inl hway
    | cons b before =>
      cases he
      rw [leftOf_cons, Option.bind_eq_some_iff] at hleft
      obtain ⟨d, hd, hleft⟩ := hleft
      exact .inr ⟨d, hd, before, t, after, e, rfl, hleft, hway⟩
  · rintro (hway | ⟨d, hd, before, t, after, e, rfl, hleft, hway⟩)
    · exact ⟨[], s, rs, c, rfl, rfl, hway⟩
    · refine ⟨s :: before, t, after, e, rfl, ?_, hway⟩
      rw [leftOf_cons, hd, Option.bind_some, hleft]

/-- Of some of the sets, in their order, a part is left. -/
def PartsOf (kept rs : List WordSet) : Prop :=
  kept.SublistForall₂ (fun u s => ∀ n ∈ u, n ∈ s) rs

theorem PartsOf.length_le (h : PartsOf kept rs) : kept.length ≤ rs.length := by
  obtain ⟨ts, hparts, hsub⟩ := List.sublistForall₂_iff.1 h
  exact hparts.length_eq ▸ hsub.length_le

theorem partsOf_refl (rs : List WordSet) : PartsOf rs rs :=
  List.sublistForall₂_iff.2 ⟨rs, List.forall₂_same.2 fun _ _ _ hn => hn, .refl rs⟩

theorem PartsOf.cons_option {o : Option WordSet} (h : PartsOf kept rs)
    (ho : ∀ u ∈ o, ∀ n ∈ u, n ∈ s) : PartsOf (o.toList ++ kept) (s :: rs) := by
  cases o with
  | none => exact .cons_right h
  | some u => exact .cons (ho u rfl) h

theorem PartsOf.ne_cons {o : Option WordSet} (h : PartsOf kept rs) (ho : o ≠ some s) :
    o.toList ++ kept ≠ s :: rs := by
  intro he
  cases o with
  | none =>
    have hlen := h.length_le
    rw [show kept = s :: rs from he, List.length_cons] at hlen
    omega
  | some u => exact ho (congrArg some (List.cons.inj he).1)

theorem exists_kept (g : JoinGraph) (rs : List WordSet) (c : WordSet) :
    ∃ kept, g.record rs c = kept ++ (g.leftOf rs c).toList ∧ PartsOf kept rs ∧
      (kept = rs ↔ ¬g.Displaces rs c) := by
  induction rs generalizing c with
  | nil => exact ⟨[], rfl, .nil, by simp [not_displaces_nil]⟩
  | cons s rs ih =>
    have hset := settled_encounter g s c
    by_cases hway : g.GivesWay s c
    · -- The candidate goes on as it is. Whatever comes later, the list has changed already.
      obtain ⟨s', hmeet, hne⟩ := hway.encounter
      obtain ⟨kept, hrecord, hparts, _⟩ := ih c
      rw [hmeet] at hset
      refine ⟨s'.toList ++ kept, ?_, hparts.cons_option hset.recorded_subset, ?_⟩
      · rw [record_cons, leftOf_cons, hmeet, Option.elim_some, hrecord, Option.bind_some,
          List.append_assoc]
      · exact iff_of_false (hparts.ne_cons hne) (not_not_intro (displaces_cons.2 (.inl hway)))
    · have hstays := encounter_of_not_givesWay hway
      rw [record_cons, leftOf_cons, displaces_cons, hstays]
      rcases (g.encounter s c).2 with _ | d
      · exact ⟨s :: rs, by simp, partsOf_refl _, by simp [hway]⟩
      · obtain ⟨kept, hrecord, hparts, hiff⟩ := ih d
        refine ⟨s :: kept, by simp [hrecord], .cons (fun _ hn => hn) hparts, ?_⟩
        simp [hway, hiff]

/-- A candidate that overlaps with one subset only is not discarded after that one has given way to it. -/
theorem leftOf_ne_none_of_displaces (hrs : ∀ s ∈ rs, g.isShareable s = true)
    (hc : g.isShareable c = true) (honce : rs.Pairwise fun s t => s.Apart c ∨ t.Apart c)
    (h : g.Displaces rs c) : g.leftOf rs c ≠ none := by
  obtain ⟨before, s, after, d, rfl, hleft, hway⟩ := h
  have hbefore : ∀ t ∈ before, g.isShareable t = true := fun t ht =>
    hrs t (List.mem_append_left _ ht)
  have hover : ¬s.Apart c := fun hapart =>
    hway.1 (hapart.mono (fun n hn => hn) (leftOf_spec hbefore hc hleft).2)
  obtain ⟨_, hafter, hcross⟩ := List.pairwise_append.1 honce
  -- It is the only one that overlaps, so the candidate passes all others as it is.
  have hfirst : g.leftOf before c = some c := leftOf_of_apart fun t ht =>
    (hcross t ht s List.mem_cons_self).resolve_right hover
  have hrest : g.leftOf after c = some c := leftOf_of_apart fun t ht =>
    ((List.pairwise_cons.1 hafter).1 t ht).resolve_left hover
  cases hfirst.symm.trans hleft
  obtain ⟨s', hmeet, _⟩ := hway.encounter
  rw [leftOf_append, hfirst, Option.bind_some, leftOf_cons, hmeet, Option.bind_some, hrest]
  simp

/-- The recorded subsets stay exactly as they were if and only if none of them gives way to the candidate, be
it discarded by another one afterwards or not. -/
theorem record_unchanged_iff (h : g.Family rs) (hc : g.isShareable c = true) :
    ∃ kept, g.record rs c = kept ++ (g.leftOf rs c).toList ∧ PartsOf kept rs ∧
      (∀ d ∈ g.leftOf rs c, 2 ≤ d.size ∧ g.Connected d ∧ ∀ n ∈ d, n ∈ c) ∧
      (kept = rs ↔ ¬g.Displaces rs c) ∧
      (rs.Pairwise (fun s t => s.Apart c ∨ t.Apart c) → g.leftOf rs c = none →
        g.record rs c = rs) := by
  obtain ⟨kept, hrecord, hparts, hiff⟩ := exists_kept g rs c
  refine ⟨kept, hrecord, hparts, ?_, hiff, ?_⟩
  · intro d hd
    obtain ⟨hshare, hsub⟩ := leftOf_spec h.shareable hc hd
    obtain ⟨hsize, hconn⟩ := isShareable_iff.1 hshare
    exact ⟨hsize, hconn, hsub⟩
  · intro honce hnone
    have hstays : ¬g.Displaces rs c := fun hdisplaces =>
      leftOf_ne_none_of_displaces h.shareable hc honce hdisplaces hnone
    rw [hrecord, hnone, hiff.2 hstays, Option.toList_none, List.append_nil]

end JoinGraph

namespace Row

/-- The first two hops and the last three. -/
def recorded : List WordSet := [.ofList [0, 1], .ofList [2, 3, 4]]

theorem recorded_family : graph.Family recorded where
  shareable := by decide +kernel
  apart := by
    have hapart : (WordSet.ofList [0, 1]).Apart (.ofList [2, 3, 4]) :=
      WordSet.isDisjoint_iff.1 (by decide +kernel)
    simpa [recorded] using hapart

/-- Two hops that overlap with both are discarded by the first subset already. It gives way to three hops,
which the second subset discards. -/
theorem middle_displaces :
    graph.Family recorded ∧ graph.isShareable (.ofList [1, 2]) = true ∧
    graph.isShareable (.ofList [1, 2, 3]) = true ∧
    ¬graph.Displaces recorded (.ofList [1, 2]) ∧ graph.Displaces recorded (.ofList [1, 2, 3]) := by
  have htwo : graph.isShareable (.ofList [1, 2]) = true := by decide +kernel
  have hthree : graph.isShareable (.ofList [1, 2, 3]) = true := by decide +kernel
  have hsame : graph.record recorded (.ofList [1, 2]) = recorded := by decide +kernel
  have hless : graph.record recorded (.ofList [1, 2, 3]) ≠ recorded := by decide +kernel
  have hnone : graph.leftOf recorded (.ofList [1, 2]) = none := by decide +kernel
  have hnone' : graph.leftOf recorded (.ofList [1, 2, 3]) = none := by decide +kernel
  obtain ⟨kept, hrecord, _, _, hkept, _⟩ := JoinGraph.record_unchanged_iff recorded_family htwo
  obtain ⟨kept', hrecord', _, _, hkept', _⟩ :=
    JoinGraph.record_unchanged_iff recorded_family hthree
  rw [hnone, Option.toList_none, List.append_nil] at hrecord
  rw [hnone', Option.toList_none, List.append_nil] at hrecord'
  refine ⟨recorded_family, htwo, hthree, hkept.1 (hrecord.symm.trans hsame), ?_⟩
  by_contra hnot
  exact hless (hrecord'.trans (hkept'.2 hnot))

/-- The first two hops give way to the candidate, which is discarded by the last three then. -/
theorem middle_leaves_trace :
    graph.Family recorded ∧ graph.isShareable (.ofList [1, 2, 3]) = true ∧
    ¬((∃ kept d, graph.record recorded (.ofList [1, 2, 3]) = kept ++ [d] ∧ (∃ n, n ∈ d) ∧
        ∀ n ∈ d, n ∈ WordSet.ofList [1, 2, 3]) ∨
      graph.record recorded (.ofList [1, 2, 3]) = recorded) := by
  have hrecord : graph.record recorded (.ofList [1, 2, 3]) = [.ofList [2, 3, 4]] := by
    decide +kernel
  refine ⟨recorded_family, by decide +kernel, ?_⟩
  rw [hrecord]
  rintro (⟨kept, d, he, _, hsub⟩ | he)
  · have hd : WordSet.ofList [2, 3, 4] = d := by simpa using congrArg List.getLast? he
    have hlast := hsub 4
    simp [← hd] at hlast
  · simp [recorded] at he

end Row

end FedPlan
