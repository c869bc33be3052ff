import FedPlan.Proofs.Sharing.Disjointness

/-!
# Candidates for sharing

Which subsets of the given sets are handed to a strategy, and that sets of one graph are searched for
them without a violation.
-/

namespace FedPlan

theorem filterMapM_ok {ε α β : Type} {f : α → Except ε (Option β)} {f' : α → Option β} {xs : List α}
    (h : ∀ x ∈ xs, f x = .ok (f' x)) : xs.filterMapM f = .ok (xs.filterMap f') := by
  induction xs with
  | nil => rfl
  | cons x xs ih =>
    obtain ⟨hx, hxs⟩ := List.forall_mem_cons.1 h
    rw [List.filterMapM_cons, hx, ih hxs]
    rcases hfx : f' x with _ | y
    · rw [List.filterMap_cons_none hfx]
      rfl
    · rw [List.filterMap_cons_some hfx]
      rfl

theorem forM_eq_ok {ε α : Type} {f : α → Except ε Unit} {xs : List α} :
    xs.forM f = .ok () ↔ ∀ x ∈ xs, f x = .ok () := by
  induction xs with
  | nil => simp [List.forM, pure, Except.pure]
  | cons x xs ih =>
    show (f x >>= fun _ => xs.forM f) = _ ↔ _
    rw [List.forall_mem_cons, ← ih]
    rcases hx : f x with _ | u
    · simp [bind, Except.bind]
    · simp [bind, Except.bind]

theorem forM_eq_error {ε α : Type} {f : α → Except ε Unit} {e : α → ε} {xs : List α}
    (h : ∀ x ∈ xs, f x = .ok () ∨ f x = .error (e x)) (hfail : ∃ x ∈ xs, f x ≠ .ok ()) :
    ∃ x ∈ xs, xs.forM f = .error (e x) := by
  induction xs with
  | nil =>
    obtain ⟨x, hx, _⟩ := hfail
    cases hx
  | cons x xs ih =>
    obtain ⟨hx, hxs⟩ := List.forall_mem_cons.1 h
    show ∃ y ∈ x :: xs, (f x >>= fun _ => xs.forM f) = .error (e y)
    rcases hx with hx | hx
    · obtain ⟨y, hy, hne⟩ := hfail
      have hy : y ∈ xs := by
        rcases List.mem_cons.1 hy with he | hy
        · exact absurd (he ▸ hx) hne
        · exact hy
      obtain ⟨z, hz, herr⟩ := ih hxs ⟨y, hy, hne⟩
      exact ⟨z, List.mem_cons_of_mem x hz, by rw [hx]; exact herr⟩
    · exact ⟨x, List.mem_cons_self, by rw [hx]; rfl⟩

namespace JoinGraph

variable {g : JoinGraph} {c u members : WordSet} {sets : List NodeSet} {s t : NodeSet} {i k : Nat}

/-! ## Overlaps -/

/-- The intersection of two sets, if it can be shared. -/
def overlap (g : JoinGraph) (s t : WordSet) : Option WordSet :=
  if g.isShareable (s ∩ t) then some (s ∩ t) else none

theorem overlap?_eq_ok (hs : g.Owns s) (ht : g.Owns t) :
    g.overlap? s t = .ok (g.overlap s.members t.members) := by
  have hinter : s.inter? t = .ok ⟨s.owner, s.members ∩ t.members⟩ :=
    if_pos (hs.owner.trans ht.owner.symm)
  have howns : g.Owns ⟨s.owner, s.members ∩ t.members⟩ :=
    ⟨hs.owner, fun n hn => hs.holds n (WordSet.mem_inter.1 hn).1⟩
  rw [overlap?, hinter, overlap, isShareable]
  simp only [bind, Except.bind, NodeSet.size, isConnected?_eq_ok howns]
  split
  · next hlt =>
    have hsmall : ¬2 ≤ (s.members ∩ t.members).size := by omega
    simp only [hsmall, decide_false, Bool.false_and, Bool.false_eq_true, if_false]
    rfl
  · next hge =>
    have hlarge : 2 ≤ (s.members ∩ t.members).size := by omega
    simp only [hlarge, decide_true, Bool.true_and]
    split <;> rfl

/-- The disjoint subsets that are shared, for sets that belong to the graph. -/
def sharedSubsets (g : JoinGraph) (sets : List NodeSet) : List WordSet :=
  ((pairs sets).filterMap fun (s, t) => g.overlap s.members t.members).foldl g.record []

theorem sharedSubsets?_eq_ok (h : ∀ s ∈ sets, g.Owns s) :
    g.sharedSubsets? sets = .ok (g.sharedSubsets sets) := by
  have hoverlaps : (pairs sets).filterMapM (fun (s, t) => g.overlap? s t) =
      .ok ((pairs sets).filterMap fun (s, t) => g.overlap s.members t.members) := by
    apply filterMapM_ok
    intro x hx
    obtain ⟨h₁, h₂⟩ := mem_of_mem_pairs hx
    exact overlap?_eq_ok (h _ h₁) (h _ h₂)
  rw [sharedSubsets?, hoverlaps]
  rfl

theorem mem_overlaps {xs : List (NodeSet × NodeSet)} :
    u ∈ xs.filterMap (fun (s, t) => g.overlap s.members t.members) ↔
      g.isShareable u = true ∧ ∃ x ∈ xs, u = x.1.members ∩ x.2.members := by
  simp only [List.mem_filterMap, overlap]
  constructor
  · intro hu
    obtain ⟨x, hx, hu⟩ := hu
    split at hu
    · next hshare =>
      cases hu
      exact ⟨hshare, x, hx, rfl⟩
    · cases hu
  · intro hu
    obtain ⟨hshare, x, hx, rfl⟩ := hu
    exact ⟨x, hx, if_pos hshare⟩

theorem family_sharedSubsets (g : JoinGraph) (sets : List NodeSet) :
    g.Family (g.sharedSubsets sets) :=
  Family.recordAll ⟨by simp, .nil⟩ fun _ hc => (mem_overlaps.1 hc).1

/-- The subset is contained in two of the sets, which stand at different places. -/
def WithinTwo (sets : List NodeSet) (c : WordSet) : Prop :=
  ∃ (i j : Nat) (s t : NodeSet), i ≠ j ∧ sets[i]? = some s ∧ sets[j]? = some t ∧
    ∀ n ∈ c, n ∈ s.members ∩ t.members

theorem WithinTwo.mono (h : WithinTwo sets u) (hsub : ∀ n ∈ c, n ∈ u) : WithinTwo sets c := by
  obtain ⟨i, j, s, t, hne, hs, ht, hall⟩ := h
  exact ⟨i, j, s, t, hne, hs, ht, fun n hn => hall n (hsub n hn)⟩

theorem WithinTwo.exists_set (h : WithinTwo sets c) : ∃ s ∈ sets, ∀ n ∈ c, n ∈ s.members := by
  obtain ⟨i, _, s, _, _, hs, _, hall⟩ := h
  exact ⟨s, List.mem_of_getElem? hs, fun n hn => (WordSet.mem_inter.1 (hall n hn)).1⟩

theorem withinTwo_of_mem_sharedSubsets (hu : u ∈ g.sharedSubsets sets) : WithinTwo sets u := by
  rcases subset_of_mem_recordAll hu with ⟨t, ht, _⟩ | ⟨c, hc, hsub⟩
  · exact absurd ht List.not_mem_nil
  · obtain ⟨_, x, hx, rfl⟩ := mem_overlaps.1 hc
    obtain ⟨i, j, hlt, hi, hj⟩ := mem_pairs_iff.1 hx
    exact ⟨i, j, x.1, x.2, Nat.ne_of_lt hlt, hi, hj, hsub⟩

/-! ## Splitting -/

/-- Which of the sets contain a position. -/
def occurrence (sets : List NodeSet) (i : Nat) : List Bool := sets.map (·.contains i)

/-- The members with a given occurrence. -/
private def group (sets : List NodeSet) (members : WordSet) (key : List Bool) : WordSet :=
  .ofList (((members.toList.map fun i => (occurrence sets i, i)).filter (·.1 == key)).map (·.2))

private theorem mem_group {key : List Bool} :
    i ∈ group sets members key ↔ i ∈ members ∧ occurrence sets i = key := by
  simp only [group, WordSet.mem_ofList, List.mem_map, List.mem_filter, WordSet.mem_toList,
    beq_iff_eq, Prod.exists, Prod.mk.injEq]
  constructor
  · intro h
    obtain ⟨_, j, ⟨⟨_, hj, rfl, rfl⟩, hkey⟩, rfl⟩ := h
    exact ⟨hj, hkey⟩
  · intro h
    exact ⟨occurrence sets i, i, ⟨⟨i, h.1, rfl, rfl⟩, h.2⟩, rfl⟩

private theorem splitBy_eq : g.splitBy sets members =
    (((members.toList.map (occurrence sets)).eraseDups).map (group sets members)).filter
      g.isShareable := by
  simp only [splitBy, List.map_map]
  rfl

theorem mem_of_mem_splitBy (hc : c ∈ g.splitBy sets members) (hi : i ∈ c) : i ∈ members := by
  rw [splitBy_eq] at hc
  obtain ⟨key, _, rfl⟩ := List.mem_map.1 (List.mem_filter.1 hc).1
  exact (mem_group.1 hi).1

theorem family_splitBy (g : JoinGraph) (sets : List NodeSet) (members : WordSet) :
    g.Family (g.splitBy sets members) := by
  rw [splitBy_eq]
  refine ⟨fun c hc => (List.mem_filter.1 hc).2, List.Pairwise.filter _ (List.pairwise_map.2 ?_)⟩
  refine (nodup_eraseDups (members.toList.map (occurrence sets))).imp ?_
  intro k l hne n hk hl
  exact hne ((mem_group.1 hk).2.symm.trans (mem_group.1 hl).2)

/-- Each of the sets contains all members of the subset or none. -/
def Uniform (sets : List NodeSet) (c : WordSet) : Prop :=
  ∀ s ∈ sets, (∀ n ∈ c, n ∈ s.members) ∨ c.Apart s.members

theorem uniform_of_mem_splitBy (hc : c ∈ g.splitBy sets members) : Uniform sets c := by
  rw [splitBy_eq] at hc
  obtain ⟨key, _, rfl⟩ := List.mem_map.1 (List.mem_filter.1 hc).1
  intro s hs
  by_cases hany : ∃ n ∈ group sets members key, n ∈ s.members
  · obtain ⟨k, hk, hks⟩ := hany
    refine .inl fun n hn => ?_
    have hsame : occurrence sets n = occurrence sets k :=
      (mem_group.1 hn).2.trans (mem_group.1 hk).2.symm
    have hcontains : s.contains n = s.contains k := List.map_inj_left.1 hsame s hs
    exact hcontains.trans hks
  · exact .inr fun n hn hns => hany ⟨n, hn, hns⟩

theorem splitBy_of_subset (hsub : ∀ s ∈ sets, ∀ n ∈ members, n ∈ s.members)
    (hshare : g.isShareable members = true) : g.splitBy sets members = [members] := by
  have hoccurs : ∀ i ∈ members, occurrence sets i = sets.map fun _ => true := fun i hi =>
    List.map_congr_left fun s hs => hsub s hs i hi
  have hgroup : group sets members (sets.map fun _ => true) = members := by
    apply WordSet.ext
    intro i
    rw [mem_group]
    exact ⟨And.left, fun hi => ⟨hi, hoccurs i hi⟩⟩
  have hkeys : (members.toList.map (occurrence sets)).eraseDups = [sets.map fun _ => true] := by
    obtain ⟨i, j, rest, hlist⟩ := WordSet.two_le_size_iff.1 (isShareable_iff.1 hshare).1
    have hall : members.toList.map (occurrence sets) =
        members.toList.map fun _ => sets.map fun _ => true :=
      List.map_congr_left fun i hi => hoccurs i (WordSet.mem_toList.1 hi)
    rw [hall, hlist, List.map_cons, List.eraseDups_cons, List.filter_eq_nil_iff.2]
    · rfl
    · simp
  rw [splitBy_eq, hkeys, List.map_singleton, hgroup, List.filter_singleton, hshare]
  rfl

/-! ## Candidates -/

/-- The subsets that the reduction of the sets plans one after another. -/
def candidates (g : JoinGraph) (sets : List NodeSet) : List WordSet :=
  (g.sharedSubsets sets).flatMap (g.splitBy sets)

theorem exists_sharedSubset (hc : c ∈ g.candidates sets) :
    ∃ u ∈ g.sharedSubsets sets, c ∈ g.splitBy sets u := List.mem_flatMap.1 hc

theorem family_candidates (g : JoinGraph) (sets : List NodeSet) : g.Family (g.candidates sets) := by
  refine ⟨?_, List.pairwise_flatMap.2 ⟨fun u _ => (family_splitBy g sets u).apart, ?_⟩⟩
  · intro c hc
    obtain ⟨u, _, hcu⟩ := exists_sharedSubset hc
    exact (family_splitBy g sets u).shareable c hcu
  · refine (family_sharedSubsets g sets).apart.imp ?_
    intro u w huw c hc d hd
    exact huw.mono (fun n hn => mem_of_mem_splitBy hc hn) fun n hn => mem_of_mem_splitBy hd hn

theorem two_le_size_of_mem_candidates (hc : c ∈ g.candidates sets) : 2 ≤ c.size :=
  (isShareable_iff.1 ((family_candidates g sets).shareable c hc)).1

theorem uniform_candidates (hc : c ∈ g.candidates sets) : Uniform sets c := by
  obtain ⟨u, _, hcu⟩ := exists_sharedSubset hc
  exact uniform_of_mem_splitBy hcu

theorem withinTwo_candidates (hc : c ∈ g.candidates sets) : WithinTwo sets c := by
  obtain ⟨u, hu, hcu⟩ := exists_sharedSubset hc
  exact (withinTwo_of_mem_sharedSubsets hu).mono fun n hn => mem_of_mem_splitBy hcu hn

theorem holds_candidates (h : ∀ s ∈ sets, g.Owns s) (hc : c ∈ g.candidates sets) : g.Holds c := by
  obtain ⟨s, hs, hsub⟩ := (withinTwo_candidates hc).exists_set
  exact fun n hn => (h s hs).holds n (hsub n hn)

/-! ## The check for disjoint sets -/

theorem isDisjoint?_eq_ok (hs : g.Owns s) (ht : g.Owns t) :
    s.isDisjoint? t = .ok (s.members.isDisjoint t.members) :=
  if_pos (hs.owner.trans ht.owner.symm)

theorem requireDisjoint_eq_ok (h : ∀ s ∈ sets, g.Owns s)
    (hapart : sets.Pairwise fun s t => s.members.Apart t.members) :
    requireDisjoint sets = .ok () := by
  rw [requireDisjoint, forM_eq_ok]
  intro x hx
  obtain ⟨h₁, h₂⟩ := mem_of_mem_pairs hx
  have hdisj : x.1.members.isDisjoint x.2.members = true :=
    WordSet.isDisjoint_iff.2 (forall_mem_pairs_iff.2 hapart x hx)
  simp only [isDisjoint?_eq_ok (h _ h₁) (h _ h₂), hdisj]
  rfl

end JoinGraph

end FedPlan
