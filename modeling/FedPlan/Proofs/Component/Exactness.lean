import FedPlan.Proofs.Component.Coverage
import FedPlan.Proofs.Component.Exploration
import FedPlan.Proofs.Hops
import FedPlan.Proofs.OpenInputs

/-!
# Exactness of the component search

A component is described without regard to how it is found. Every set that the search reaches is
part of what a component could be, and from a part of a component the search always goes on to a
larger part: a set is given up only if no node that may still be added binds what it needs.
-/

namespace FedPlan

/-- A connected set of nodes that matches each pattern of the query exactly once, matches nothing
else, and leaves no input open. -/
structure IsComponent (g : JoinGraph) (q : Query) (s : NodeSet) : Prop where
  owns : g.Owns s
  nonempty : ∃ i, i ∈ s.members
  matched : ∀ i ∈ s.members, ∀ t, g.Matches i t → t ∈ q.triples
  covered : ∀ t ∈ q.triples, ∃ i ∈ s.members, g.Matches i t ∧
    ∀ j ∈ s.members, g.Matches j t → j = i
  connected : g.Connected s.members
  satisfied : ∀ i ∈ s.members, ∀ v, g.Needs i v → ∃ j ∈ s.members, j ≠ i ∧ g.Binds j v

theorem IsComponent.patternsApart {g : JoinGraph} {q : Query} {s : NodeSet}
    (h : IsComponent g q s) : g.PatternsApart s.members := by
  intro i hi j hj t hit hjt
  obtain ⟨k, _, _, hunique⟩ := h.covered t (h.matched i hi t hit)
  rw [hunique i hi hit, hunique j hj hjt]

theorem IsComponent.query_ne_nil {g : JoinGraph} {q : Query} {s : NodeSet}
    (h : IsComponent g q s) : q.triples ≠ [] := by
  obtain ⟨i, hi⟩ := h.nonempty
  obtain ⟨p, hp⟩ := JoinGraph.exists_node (h.owns.holds i hi)
  obtain ⟨t, ht⟩ := List.exists_mem_of_ne_nil _ p.triples_ne_nil
  exact List.ne_nil_of_mem (h.matched i hi t ⟨p, hp, ht⟩)

namespace Matching

variable {m : Matching} {members : WordSet} {i j : Nat}

/-- What holds of every set that the search reaches. -/
structure Partial (m : Matching) (members : WordSet) : Prop where
  nonempty : ∃ i, i ∈ members
  usable : ∀ i ∈ members, m.Usable i
  exclusive : m.graph.PatternsApart members
  connected : m.graph.Connected members

theorem partial_singleton (h : m.Usable i) : m.Partial (.singleton i) where
  nonempty := ⟨i, WordSet.mem_singleton.2 rfl⟩
  usable := by
    intro j hj
    rw [WordSet.mem_singleton.1 hj]
    exact h
  exclusive := by
    intro a ha b hb t _ _
    rw [WordSet.mem_singleton.1 ha, WordSet.mem_singleton.1 hb]
  connected := JoinGraph.connected_singleton m.graph i

theorem mem_extensions {u : WordSet} : u ∈ m.extensions members (m.covered members) ↔
    ∃ j, j ∉ members ∧ (∃ i ∈ members, j ∈ m.graph.neighbors i) ∧
      m.fits (m.covered members) j = true ∧ u = members.insert j := by
  simp only [extensions, List.mem_map, List.mem_filter, WordSet.mem_toList,
    JoinGraph.mem_neighborhood, and_assoc]
  constructor
  · intro h
    obtain ⟨j, hnot, hadj, hfits, hu⟩ := h
    exact ⟨j, hnot, hadj, hfits, hu.symm⟩
  · intro h
    obtain ⟨j, hnot, hadj, hfits, hu⟩ := h
    exact ⟨j, hnot, hadj, hfits, hu.symm⟩

theorem Partial.insert (h : m.Partial members) (hi : i ∈ members)
    (hadj : j ∈ m.graph.neighbors i) (hfits : m.fits (m.covered members) j = true) :
    m.Partial (members.insert j) := by
  obtain ⟨husable, hnew⟩ := (fits_covered h.usable).1 hfits
  refine ⟨⟨j, WordSet.mem_insert.2 (.inl rfl)⟩, ?_, ?_, h.connected.insert hi hadj⟩
  · intro k hk
    rcases WordSet.mem_insert.1 hk with he | hk
    · rw [he]
      exact husable
    · exact h.usable k hk
  · intro a ha b hb t hat hbt
    rcases WordSet.mem_insert.1 ha with hea | ha
    · rcases WordSet.mem_insert.1 hb with heb | hb
      · rw [hea, heb]
      · exact absurd hbt (hnew b hb t (hea ▸ hat))
    · rcases WordSet.mem_insert.1 hb with heb | hb
      · exact absurd hat (hnew a ha t (heb ▸ hbt))
      · exact h.exclusive a ha b hb t hat hbt

theorem grow?_eq_none_iff : m.grow? members = none ↔
    m.covered members = .range m.query.size ∧ (m.graph.openInputs members).isEmpty = true := by
  rw [grow?]
  split
  · next h => simpa using h
  · next h =>
    split <;> simpa using h

theorem grow?_eq_some {next : List WordSet} (h : m.grow? members = some next) {u : WordSet}
    (hu : u ∈ next) : u ∈ m.extensions members (m.covered members) := by
  rw [grow?] at h
  split at h
  · cases h
  · split at h
    · cases h
      exact hu
    · cases h
      exact absurd hu List.not_mem_nil

theorem Reached.isPartial (h : m.Reached members) : m.Partial members := by
  induction h with
  | seed ht =>
    obtain ⟨i, hi, rfl⟩ := mem_seeds.1 ht
    exact partial_singleton hi
  | grow _ hgrow hu ih =>
    obtain ⟨j, _, ⟨i, hi, hadj⟩, hfits, rfl⟩ := mem_extensions.1 (grow?_eq_some hgrow hu)
    exact ih.insert hi hadj hfits

theorem Reached.holds (h : m.Reached members) : m.graph.Holds members :=
  fun i hi => (h.isPartial.usable i hi).lt_size

/-! ## Soundness -/

/-- A reached set is final if and only if it is a component. -/
theorem Partial.final_iff (h : m.Partial members) :
    m.grow? members = none ↔ IsComponent m.graph m.query (m.graph.own members) := by
  rw [grow?_eq_none_iff, covered_eq_range_iff h.usable, JoinGraph.openInputs_isEmpty_iff]
  constructor
  · intro hfinal
    refine ⟨JoinGraph.owns_own fun i hi => (h.usable i hi).lt_size, h.nonempty,
      fun i hi => (h.usable i hi).in_query, ?_, h.connected, hfinal.2⟩
    intro t ht
    obtain ⟨i, hi, hit⟩ := hfinal.1 t ht
    exact ⟨i, hi, hit, fun j hj hjt => h.exclusive j hj i hi t hjt hit⟩
  · intro hcomp
    refine ⟨?_, hcomp.satisfied⟩
    intro t ht
    obtain ⟨i, hi, hit, _⟩ := hcomp.covered t ht
    exact ⟨i, hi, hit⟩

/-! ## Completeness -/

section Completeness

variable {whole part : WordSet}

theorem usable_of_isComponent (h : IsComponent m.graph m.query (m.graph.own whole))
    (hi : i ∈ whole) : m.Usable i := ⟨h.owns.holds i hi, h.matched i hi⟩

theorem fits_of_isComponent (h : IsComponent m.graph m.query (m.graph.own whole))
    (hsub : ∀ n ∈ part, n ∈ whole) (hj : j ∈ whole) (hnot : j ∉ part) :
    m.fits (m.covered part) j = true := by
  refine (fits_covered fun n hn => usable_of_isComponent h (hsub n hn)).2
    ⟨usable_of_isComponent h hj, ?_⟩
  intro k hk t hjt hkt
  have he : j = k := h.patternsApart j hj k (hsub k hk) t hjt hkt
  exact hnot (he ▸ hk)

theorem grow?_ne_none (h : IsComponent m.graph m.query (m.graph.own whole))
    (hsub : ∀ n ∈ part, n ∈ whole) (hj : j ∈ whole) (hnot : j ∉ part) :
    m.grow? part ≠ none := by
  intro hnone
  obtain ⟨p, hp⟩ := JoinGraph.exists_node (h.owns.holds j hj)
  obtain ⟨t, ht⟩ := List.exists_mem_of_ne_nil _ p.triples_ne_nil
  have hjt : m.graph.Matches j t := ⟨p, hp, ht⟩
  have hcovered := (covered_eq_range_iff fun n hn => usable_of_isComponent h (hsub n hn)).1
    (grow?_eq_none_iff.1 hnone).1
  obtain ⟨k, hk, hkt⟩ := hcovered t (h.matched j hj t hjt)
  have he : j = k := h.patternsApart j hj k (hsub k hk) t hjt hkt
  exact hnot (he ▸ hk)

/-- What a part of a component needs can still be bound, so the part is not given up. -/
theorem canStillBind_of_isComponent (h : IsComponent m.graph m.query (m.graph.own whole))
    (hsub : ∀ n ∈ part, n ∈ whole) {v : Variable} (hv : v ∈ m.graph.openInputs part) :
    m.canStillBind part (m.covered part) v = true := by
  obtain ⟨i, hi, hneeds, hopen⟩ := JoinGraph.mem_openInputs.1 hv
  obtain ⟨j, hj, hne, hbinds⟩ := h.satisfied i (hsub i hi) v hneeds
  have hnot : j ∉ part := fun hmem => hopen j hmem hne hbinds
  obtain ⟨p, hp, hres⟩ := hbinds
  rw [canStillBind, List.any_eq_true]
  refine ⟨(p, j), List.mem_zipIdx_iff_getElem?.2 hp, ?_⟩
  simp only [Bool.and_eq_true, decide_eq_true_eq]
  exact ⟨⟨hres, hnot⟩, fits_of_isComponent h hsub hj hnot⟩

theorem Reached.extend (h : IsComponent m.graph m.query (m.graph.own whole))
    (hpart : m.Reached part) (hsub : ∀ n ∈ part, n ∈ whole) (hj : j ∈ whole) (hnot : j ∉ part) :
    ∃ k ∈ whole, k ∉ part ∧ m.Reached (part.insert k) := by
  obtain ⟨i, hi⟩ := hpart.isPartial.nonempty
  obtain ⟨a, ha, k, hk, hknot, hadj⟩ := h.connected.exists_exit hsub hi hj hnot
  have hgrow : m.grow? part = some (m.extensions part (m.covered part)) := by
    have hne := grow?_ne_none h hsub hj hnot
    have hall : (m.graph.openInputs part).toList.all
        (m.canStillBind part (m.covered part)) = true := by
      rw [List.all_eq_true]
      intro v hv
      exact canStillBind_of_isComponent h hsub (VarSet.mem_toList.1 hv)
    rw [grow?] at hne ⊢
    split at hne
    · exact absurd rfl hne
    · next hfinal => rw [if_neg hfinal, if_pos hall]
  refine ⟨k, hk, hknot, .grow hpart hgrow (mem_extensions.2 ?_)⟩
  exact ⟨k, hknot, ⟨a, ha, hadj⟩, fits_of_isComponent h hsub hk hknot, rfl⟩

/-- From a reached part of a component the search gets to the whole. -/
theorem Reached.complete (h : IsComponent m.graph m.query (m.graph.own whole)) {left : Nat}
    (hpart : m.Reached part) (hsub : ∀ n ∈ part, n ∈ whole)
    (hleft : (whole \ part).size = left) : m.Reached whole := by
  induction left generalizing part with
  | zero =>
    have hsup : ∀ n ∈ whole, n ∈ part := by
      intro n hn
      by_contra hnot
      rw [WordSet.size_sdiff_insert hn hnot] at hleft
      omega
    rwa [WordSet.ext fun n => ⟨hsup n, hsub n⟩]
  | succ left ih =>
    obtain ⟨j, hj⟩ : ∃ j, j ∈ whole \ part := by
      by_contra hnone
      rw [WordSet.size_eq_length, WordSet.toList_eq_nil_iff.2 fun n hn => hnone ⟨n, hn⟩] at hleft
      cases hleft
    obtain ⟨hjw, hjp⟩ := WordSet.mem_sdiff.1 hj
    obtain ⟨k, hk, hknot, hreached⟩ := hpart.extend h hsub hjw hjp
    refine ih hreached ?_ ?_
    · intro n hn
      rcases WordSet.mem_insert.1 hn with he | hn
      · rw [he]
        exact hk
      · exact hsub n hn
    · rw [WordSet.size_sdiff_insert hk hknot] at hleft
      omega

theorem reached_of_isComponent (h : IsComponent m.graph m.query (m.graph.own whole)) :
    m.Reached whole := by
  obtain ⟨i, hi⟩ := h.nonempty
  have hseed : m.Reached (.singleton i) :=
    .seed (mem_seeds.2 ⟨i, usable_of_isComponent h hi, rfl⟩)
  refine hseed.complete h ?_ rfl
  intro n hn
  rw [WordSet.mem_singleton.1 hn]
  exact hi

end Completeness

end Matching

namespace JoinGraph

variable {g : JoinGraph} {q : Query} {s : NodeSet}

theorem own_members (h : g.Owns s) : g.own s.members = s := by
  rw [own, ← h.owner]

theorem components_eq (h : q.triples ≠ []) : g.components q =
    (ComponentSearch.startAll (.of g q) (Matching.of g q).seeds).found.map g.own := by
  rw [components, if_neg]
  rw [Query.isEmpty, List.isEmpty_iff]
  exact h

theorem mem_components_iff (h : q.triples ≠ []) : s ∈ g.components q ↔ IsComponent g q s := by
  have hholds : ∀ t, (Matching.of g q).Reached t → (Matching.of g q).graph.Holds t :=
    fun t ht => ht.holds
  rw [components_eq h, List.mem_map]
  constructor
  · intro hs
    obtain ⟨t, ht, rfl⟩ := hs
    obtain ⟨hreached, hfinal⟩ := (ComponentSearch.mem_found_startAll hholds).1 ht
    exact hreached.isPartial.final_iff.1 hfinal
  · intro hs
    have hcomp : IsComponent g q (g.own s.members) := by rwa [own_members hs.owns]
    have hreached := Matching.reached_of_isComponent (m := .of g q) hcomp
    exact ⟨s.members, (ComponentSearch.mem_found_startAll hholds).2
      ⟨hreached, hreached.isPartial.final_iff.2 hcomp⟩, own_members hs.owns⟩

theorem mem_components : s ∈ g.components q ↔ IsComponent g q s := by
  by_cases hq : q.triples = []
  · have hempty : q.isEmpty = true := by rw [Query.isEmpty, hq, List.isEmpty_nil]
    rw [components, if_pos hempty]
    exact ⟨fun hs => absurd hs List.not_mem_nil, fun hs => absurd hq hs.query_ne_nil⟩
  · exact mem_components_iff hq

theorem components_nodup (g : JoinGraph) (q : Query) : (g.components q).Nodup := by
  rw [components]
  split
  · exact .nil
  · have hexp := (ComponentSearch.startAll_spec (m := .of g q) (fun t ht => ht.holds)
      (fun t ht => ht)).1
    refine hexp.found_nodup.map ?_
    intro a b hab
    exact congrArg NodeSet.members hab

/-- The search for a query with at least one pattern is never cut off, it finds the components and
nothing else, and it finds each of them once. -/
theorem components_exact (g : JoinGraph) (q : Query) (hq : q.triples ≠ []) :
    (∀ done, done <+: (Matching.of g q).seeds →
      (ComponentSearch.startAll (.of g q) done).stack = []) ∧
    (∀ s, s ∈ g.components q ↔ IsComponent g q s) ∧
    (g.components q).Nodup := by
  refine ⟨?_, fun s => mem_components_iff hq, components_nodup g q⟩
  intro done hdone
  exact (ComponentSearch.startAll_spec (fun t ht => ht.holds) fun t ht => hdone.subset ht).2.1

theorem chain_isComponent :
    IsComponent Chain.graph Chain.query (Chain.graph.setOf [0, 1, 3]) ∧
    IsComponent Chain.graph Chain.query (Chain.graph.setOf [2, 3]) := by
  have hexact := components_exact Chain.graph Chain.query (by decide)
  exact ⟨(hexact.2.1 _).1 (by decide +kernel), (hexact.2.1 _).1 (by decide +kernel)⟩

end JoinGraph

end FedPlan
