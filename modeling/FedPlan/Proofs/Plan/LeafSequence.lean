import FedPlan.Proofs.Hops

/-!
# Leaves from left to right

A plan is evaluated along its leaves, from left to right. An input of the plan is an input of a leaf that
no leaf in front of it binds, however the joins above them are nested. A sequence of fragments is the
sequence of the leaves of some plan if and only if no fragment waits for a later one, and then each of
them can be joined to the right of the plan of those before.
-/

namespace FedPlan

theorem bind_eq_ok_iff {ε α β : Type} {x : Except ε α} {f : α → Except ε β} {b : β} :
    x >>= f = .ok b ↔ ∃ a, x = .ok a ∧ f a = .ok b := by
  cases x with
  | error e => simp [bind, Except.bind]
  | ok a => simp [bind, Except.bind]

variable {inputs : Signature → VarSet} {f : Fragment} {fs gs : List Fragment} {v : Variable}

/-! ## Inputs of a sequence -/

/-- Some fragment of the list has the variable among its inputs, and no fragment in front of it binds
it. -/
def Enters (inputs : Signature → VarSet) (fs : List Fragment) (v : Variable) : Prop :=
  ∃ before f after, fs = before ++ f :: after ∧ v ∈ inputs f.signature ∧
    ∀ e ∈ before, v ∉ e.signature.results

theorem not_enters_nil : ¬Enters inputs [] v := by
  rintro ⟨before, f, after, he, _⟩
  simp at he

theorem enters_cons : Enters inputs (f :: fs) v ↔
    v ∈ inputs f.signature ∨ v ∉ f.signature.results ∧ Enters inputs fs v := by
  constructor
  · rintro ⟨before, g, after, he, hv, hnot⟩
    cases before with
    | nil =>
      cases he
      exact .inl hv
    | cons b before =>
      cases he
      obtain ⟨hb, hbefore⟩ := List.forall_mem_cons.1 hnot
      exact .inr ⟨hb, before, g, after, rfl, hv, hbefore⟩
  · rintro (hv | ⟨hf, before, g, after, rfl, hv, hnot⟩)
    · exact ⟨[], f, fs, rfl, hv, List.forall_mem_nil _⟩
    · exact ⟨f :: before, g, after, rfl, hv, List.forall_mem_cons.2 ⟨hf, hnot⟩⟩

theorem enters_append : Enters inputs (fs ++ gs) v ↔
    Enters inputs fs v ∨ (∀ e ∈ fs, v ∉ e.signature.results) ∧ Enters inputs gs v := by
  induction fs with
  | nil => simp [not_enters_nil]
  | cons f fs ih =>
    rw [List.cons_append, enters_cons, ih, enters_cons, List.forall_mem_cons, and_assoc, and_or_left,
      or_assoc]

namespace Plan

variable {l r p : Plan}

theorem not_mem_results_iff : v ∉ p.results ↔ ∀ e ∈ p.leaves, v ∉ e.signature.results := by
  simp [mem_results_iff]

theorem mem_required_iff_enters : v ∈ p.required ↔ Enters Signature.required p.leaves v := by
  induction p using Plan.induct with
  | source f => simp [enters_cons, not_enters_nil, required]
  | join l r p h hl hr =>
    rw [mem_required_of_join? h, leaves_of_join? h, enters_append, ← not_mem_results_iff, hl, hr,
      and_comm (a := Enters _ _ _)]

/-- An accepted input that some leaf needs can be dropped where the two meet as well as at the root. -/
theorem mem_optional_iff_enters :
    v ∈ p.optional ↔ Enters Signature.optional p.leaves v ∧ v ∉ p.required := by
  induction p using Plan.induct with
  | source f =>
    have hsingle : v ∈ f.signature.optional → v ∉ f.signature.required := fun hopt hreq =>
      (f.required_single v hreq).1 hopt
    simpa [enters_cons, not_enters_nil, optional, required] using hsingle
  | join l r p h hl hr =>
    rw [mem_optional_of_join? h, leaves_of_join? h, enters_append, ← not_mem_results_iff, hl, hr]
    apply and_congr_left
    intro hnot
    rw [mem_required_of_join? h, not_or] at hnot
    obtain ⟨hnotl, hnotr⟩ := hnot
    by_cases hres : v ∈ l.results
    · simp [hres, hnotl]
    · have hnotr : v ∉ r.required := fun hreq => hnotr ⟨hreq, hres⟩
      simp [hres, hnotl, hnotr]

theorem triples_eq_eraseDups :
    p.triples = (p.leaves.flatMap fun f => f.signature.triples).eraseDups := by
  induction p using Plan.induct with
  | source f =>
    rw [leaves_source, List.flatMap_singleton, eraseDups_of_nodup f.triples_nodup]
    rfl
  | join l r p h hl hr =>
    rw [leaves_of_join? h, List.flatMap_append, ← eraseDups_append_eraseDups, ← hl, ← hr, triples,
      signature_of_join? h]
    rfl

theorem signature_eq_of_leaves_eq {q : Plan} (h : q.leaves = p.leaves) :
    q.signature = p.signature := by
  have htriples : q.triples = p.triples := by
    rw [triples_eq_eraseDups, triples_eq_eraseDups, h]
  have hresults : q.results = p.results := VarSet.ext fun v => by
    rw [mem_results_iff, mem_results_iff, h]
  have hrequired : q.required = p.required := VarSet.ext fun v => by
    rw [mem_required_iff_enters, mem_required_iff_enters, h]
  have hoptional : q.optional = p.optional := VarSet.ext fun v => by
    rw [mem_optional_iff_enters, mem_optional_iff_enters, h, hrequired]
  calc q.signature
    _ = ⟨q.triples, q.results, q.required, q.optional⟩ := rfl
    _ = ⟨p.triples, p.results, p.required, p.optional⟩ := by
      rw [htriples, hresults, hrequired, hoptional]
    _ = p.signature := rfl

/-- What a plan matches, binds, needs and accepts is told by its leaves from left to right. -/
theorem signature_of_leaves (p : Plan) :
    p.triples = (p.leaves.flatMap fun f => f.signature.triples).eraseDups ∧
    (∀ v, v ∈ p.results ↔ ∃ f ∈ p.leaves, v ∈ f.signature.results) ∧
    (∀ v, v ∈ p.required ↔ Enters Signature.required p.leaves v) ∧
    (∀ v, v ∈ p.optional ↔ Enters Signature.optional p.leaves v ∧ v ∉ p.required) ∧
    ∀ q : Plan, q.leaves = p.leaves → q.signature = p.signature := by
  refine ⟨triples_eq_eraseDups, ?_, ?_, ?_, ?_⟩
  · exact fun v => mem_results_iff
  · exact fun v => mem_required_iff_enters
  · exact fun v => mem_optional_iff_enters
  · exact fun q h => signature_eq_of_leaves_eq h

end Plan

/-! ## Sequences that can be evaluated -/

/-- Whatever a fragment of the list needs and a later one binds, an earlier one binds as well. -/
def Executable (fs : List Fragment) : Prop :=
  ∀ before f after, fs = before ++ f :: after → ∀ v ∈ f.signature.required,
    (∃ e ∈ after, v ∈ e.signature.results) → ∃ e ∈ before, v ∈ e.signature.results

theorem Executable.not_bound_behind (h : Executable (fs ++ gs))
    (hv : Enters Signature.required fs v) : ∀ e ∈ gs, v ∉ e.signature.results := by
  obtain ⟨before, f, after, rfl, hreq, hnot⟩ := hv
  intro e he hres
  rw [List.append_assoc, List.cons_append] at h
  obtain ⟨d, hd, hbound⟩ := h before f (after ++ gs) rfl v hreq
    ⟨e, List.mem_append_right after he, hres⟩
  exact hnot d hd hbound

theorem executable_singleton (f : Fragment) : Executable [f] := by
  intro before g after he v _ hlater
  cases before with
  | nil =>
    cases he
    obtain ⟨e, hmem, _⟩ := hlater
    cases hmem
  | cons b before => simp at he

theorem executable_append (hfs : Executable fs) (hgs : Executable gs)
    (h : ∀ v, Enters Signature.required fs v → ∀ e ∈ gs, v ∉ e.signature.results) :
    Executable (fs ++ gs) := by
  intro before f after he v hreq hlater
  rcases List.append_eq_append_iff.1 he with ⟨more, rfl, rfl⟩ | ⟨more, rfl, hmore⟩
  · obtain ⟨e, hmem, hres⟩ := hgs more f after rfl v hreq hlater
    exact ⟨e, List.mem_append_right fs hmem, hres⟩
  · cases more with
    | nil =>
      rw [List.nil_append] at hmore
      obtain ⟨e, hmem, hres⟩ := hgs [] f after hmore.symm v hreq hlater
      exact absurd hmem List.not_mem_nil
    | cons f' more =>
      cases hmore
      -- The fragment belongs to the first sequence, the one that binds its input later may not. Then
      -- the input would enter the first sequence, unless it is bound there before.
      by_cases hbefore : ∃ e ∈ before, v ∈ e.signature.results
      · exact hbefore
      · have henters : Enters Signature.required (before ++ f :: more) v :=
          ⟨before, f, more, rfl, hreq, fun e hmem hres => hbefore ⟨e, hmem, hres⟩⟩
        obtain ⟨e, hmem, hres⟩ := hlater
        rcases List.mem_append.1 hmem with hmem | hmem
        · exact hfs before f more rfl v hreq ⟨e, hmem, hres⟩
        · exact absurd hres (h v henters e hmem)

namespace Plan

variable {first p q : Plan} {before after rest : List Plan}

theorem executable_leaves (p : Plan) : Executable p.leaves := by
  induction p using Plan.induct with
  | source f => exact executable_singleton f
  | join l r p h hl hr =>
    rw [leaves_of_join? h]
    refine executable_append hl hr ?_
    intro v hv
    rw [← not_mem_results_iff]
    exact exists_join?_iff.1 ⟨p, h⟩ v (mem_required_iff_enters.2 hv)

/-! ## Left-deep joins -/

/-- Joins the plans of a list to the right of the first one, one after another. -/
def leftDeep? (first : Plan) (rest : List Plan) : Except JoinError Plan := rest.foldlM join? first

theorem leftDeep?_cons_eq_ok :
    leftDeep? first (q :: rest) = .ok p ↔
      ∃ joined, first.join? q = .ok joined ∧ leftDeep? joined rest = .ok p := by
  rw [leftDeep?, List.foldlM_cons, bind_eq_ok_iff]
  rfl

theorem leftDeep?_concat (h : leftDeep? first rest = .ok p) :
    leftDeep? first (rest ++ [q]) = p.join? q := by
  rw [leftDeep?] at h
  rw [leftDeep?, List.foldlM_append, h]
  exact bind_pure (p.join? q)

theorem leftDeep?_split (h : leftDeep? first (before ++ q :: after) = .ok p) :
    ∃ current joined, leftDeep? first before = .ok current ∧ current.join? q = .ok joined ∧
      leftDeep? joined after = .ok p := by
  rw [leftDeep?, List.foldlM_append, bind_eq_ok_iff] at h
  obtain ⟨current, hcurrent, hrest⟩ := h
  obtain ⟨joined, hjoin, hafter⟩ := leftDeep?_cons_eq_ok.1 hrest
  exact ⟨current, joined, hcurrent, hjoin, hafter⟩

theorem leaves_of_leftDeep? (h : leftDeep? first rest = .ok p) :
    p.leaves = first.leaves ++ rest.flatMap leaves := by
  induction rest generalizing first with
  | nil =>
    cases h
    simp
  | cons q rest ih =>
    obtain ⟨joined, hjoin, hrest⟩ := leftDeep?_cons_eq_ok.1 h
    rw [ih hrest, leaves_of_join? hjoin, List.append_assoc, List.flatMap_cons]

theorem merges_of_leftDeep? (h : leftDeep? first rest = .ok p) : p.Merges (first :: rest) := by
  rw [merges_iff_leaves_perm, leaves_of_leftDeep? h, List.flatMap_cons]

theorem exists_leftDeep?_iff (first : Plan) :
    (∃ p, leftDeep? first (fs.map source) = .ok p) ↔ Executable (first.leaves ++ fs) := by
  induction fs generalizing first with
  | nil =>
    rw [List.append_nil]
    exact ⟨fun _ => executable_leaves first, fun _ => ⟨first, rfl⟩⟩
  | cons f fs ih =>
    simp only [List.map_cons, leftDeep?_cons_eq_ok]
    constructor
    · rintro ⟨p, joined, hjoin, hrest⟩
      have hexec := (ih joined).1 ⟨p, hrest⟩
      rwa [leaves_of_join? hjoin, leaves_source, List.append_assoc] at hexec
    · intro h
      obtain ⟨joined, hjoin⟩ : ∃ joined, first.join? (source f) = .ok joined :=
        exists_join?_iff.2 fun v hv =>
          h.not_bound_behind (mem_required_iff_enters.1 hv) f List.mem_cons_self
      have hleaves : joined.leaves ++ fs = first.leaves ++ f :: fs := by
        rw [leaves_of_join? hjoin, leaves_source, List.append_assoc, List.singleton_append]
      obtain ⟨p, hrest⟩ := (ih joined).2 (hleaves.symm ▸ h)
      exact ⟨p, joined, hjoin, hrest⟩

/-- The leaves of a plan can be joined left-deep in their order, and so can just those sequences in which no
fragment waits for a later one. -/
theorem leftDeep_most_permissive :
    (∀ p : Plan, Executable p.leaves ∧ ∃ f fs q, p.leaves = f :: fs ∧
      leftDeep? (source f) (fs.map source) = .ok q ∧ q.leaves = p.leaves) ∧
    ∀ (f : Fragment) (fs : List Fragment),
      Executable (f :: fs) ↔ ∃ q, leftDeep? (source f) (fs.map source) = .ok q := by
  have hiff (f : Fragment) (fs : List Fragment) :
      Executable (f :: fs) ↔ ∃ q, leftDeep? (source f) (fs.map source) = .ok q :=
    (exists_leftDeep?_iff (source f)).symm
  refine ⟨fun p => ⟨executable_leaves p, ?_⟩, hiff⟩
  obtain ⟨f, fs, hleaves⟩ := List.exists_cons_of_ne_nil p.leaves_ne_nil
  obtain ⟨q, hq⟩ := (hiff f fs).1 (hleaves ▸ executable_leaves p)
  refine ⟨f, fs, q, hleaves, hq, ?_⟩
  rw [leaves_of_leftDeep? hq, hleaves]
  simp [List.flatMap_map]

/-- The titles find their input bound by the books in front of them, but not within a join of their own
with what comes after them. -/
example : (leftDeep? Lookups.books [Lookups.titles, Lookups.isbns]).isOk = true ∧
    (Lookups.titles.join? Lookups.isbns).isOk = false := by decide +kernel

end Plan

end FedPlan
