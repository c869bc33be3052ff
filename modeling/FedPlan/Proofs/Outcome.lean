import FedPlan.Aggregation
import FedPlan.Alternatives
import FedPlan.Proofs.Planning

/-!
# The graph after a computation

A computation leaves a graph behind when it succeeds and also when it fails. Asking for plans and
checking results only reads the graph; all that ever changes it is adding a node. So a property of
graphs that added nodes keep is kept by every planning call, however it ends.
-/

namespace FedPlan

namespace PlanM

variable {α β : Type} {st st' : Planning} {x : PlanM α} {f : α → PlanM β} {I : JoinGraph → Prop}
  {strategy : Strategy}

def graphAfter (x : PlanM α) (st : Planning) : JoinGraph :=
  match x st with
  | .ok _ st' => st'.graph
  | .error _ st' => st'.graph

theorem graphAfter_of_ok {a : α} (h : x st = .ok a st') : x.graphAfter st = st'.graph := by
  rw [graphAfter, h]

theorem graphAfter_congr {y : PlanM α} (h : x st = y st) : x.graphAfter st = y.graphAfter st := by
  rw [graphAfter, h, graphAfter]

theorem graphAfter_bind_ok {a : α} (h : x st = .ok a st') :
    (x >>= f).graphAfter st = (f a).graphAfter st' := by
  rw [graphAfter, bind_ok h, graphAfter]

theorem graphAfter_bind_cases (x : PlanM α) (f : α → PlanM β) (st : Planning) :
    (x >>= f).graphAfter st = x.graphAfter st ∨
      ∃ a st', x st = .ok a st' ∧ (x >>= f).graphAfter st = (f a).graphAfter st' := by
  rcases hx : x st with ⟨a, st'⟩ | ⟨e, st'⟩
  · exact .inr ⟨a, st', rfl, graphAfter_bind_ok hx⟩
  · exact .inl (by rw [graphAfter, graphAfter, bind_error hx, hx])

theorem exists_of_bind_ok {b : β} (h : (x >>= f) st = .ok b st') :
    ∃ a st₁, x st = .ok a st₁ ∧ f a st₁ = .ok b st' := by
  rcases hx : x st with ⟨a, st₁⟩ | ⟨e, st₁⟩
  · rw [bind_ok hx] at h
    exact ⟨a, st₁, rfl, h⟩
  · rw [bind_error hx] at h
    cases h

theorem ofExcept_eq_ok {r : Except Failure α} {a : α} (h : ofExcept r st = .ok a st') :
    r = .ok a ∧ st' = st := by
  cases r with
  | ok b =>
    cases h
    exact ⟨rfl, rfl⟩
  | error e => cases h

theorem check_eq_ok {r : Except Violation α} {a : α} (h : check r st = .ok a st') :
    r = .ok a ∧ st' = st := by
  cases r with
  | ok b =>
    cases h
    exact ⟨rfl, rfl⟩
  | error v => cases h

/-- Whether the computation succeeds with a result that passes a test. -/
def passes (x : PlanM α) (st : Planning) (test : α → Planning → Bool) : Bool :=
  match x st with
  | .ok a st' => test a st'
  | .error _ _ => false

theorem exists_of_passes {test : α → Planning → Bool} (h : x.passes st test = true) :
    ∃ a st', x st = .ok a st' ∧ test a st' = true := by
  rw [passes] at h
  split at h
  · next a st' hok => exact ⟨a, st', hok, h⟩
  · cases h

/-! ## Reading -/

/-- The computation leaves the graph as it is. -/
def Reads (x : PlanM α) : Prop := ∀ st, x.graphAfter st = st.graph

theorem Reads.graph_eq {a : α} (hx : x.Reads) (h : x st = .ok a st') : st'.graph = st.graph := by
  rw [← graphAfter_of_ok h, hx]

theorem reads_pure (a : α) : Reads (pure a) := fun _ => rfl

theorem reads_throw (e : Failure) : Reads (throw e : PlanM α) := fun _ => rfl

theorem reads_graph : Reads graph := fun _ => rfl

theorem reads_ofExcept (r : Except Failure α) : Reads (ofExcept r) := by
  cases r with
  | ok a => exact reads_pure a
  | error e => exact reads_throw e

theorem reads_check (r : Except Violation α) : Reads (check r) := reads_ofExcept _

theorem Reads.bind (hx : x.Reads) (hf : ∀ a, (f a).Reads) : (x >>= f).Reads := by
  intro st
  rcases graphAfter_bind_cases x f st with h | ⟨a, st', hok, h⟩
  · rw [h, hx]
  · rw [h, hf, ← graphAfter_of_ok hok, hx]

theorem graphAfter_bind_of_reads (hf : ∀ a, (f a).Reads) :
    (x >>= f).graphAfter st = x.graphAfter st := by
  rcases graphAfter_bind_cases x f st with h | ⟨a, st', hok, h⟩
  · exact h
  · rw [h, hf, graphAfter_of_ok hok]

theorem reads_ask (s : NodeSet) : Reads (ask strategy s) := by
  refine Reads.bind (fun _ => rfl) fun _ => ?_
  exact reads_graph.bind fun _ => reads_ofExcept _

theorem reads_planSubset (s : NodeSet) : Reads (planSubset strategy s) := by
  refine reads_graph.bind fun _ => (reads_check _).bind fun _ => ?_
  split
  · exact reads_throw _
  · exact reads_pure _
  · exact reads_ask s

theorem reads_planComponent (options : Options) (s : NodeSet) :
    Reads (planComponent options strategy s) := by
  refine (reads_planSubset s).bind fun plan => ?_
  split
  · exact reads_pure none
  · split
    · exact reads_graph.bind fun _ => (reads_ofExcept _).bind fun _ => reads_pure _
    · exact reads_pure _

theorem reads_filterMapM {f : α → PlanM (Option β)} (hf : ∀ a, (f a).Reads) (as : List α) :
    Reads (as.filterMapM f) := by
  induction as with
  | nil => exact reads_pure []
  | cons a as ih =>
    rw [List.filterMapM_cons]
    refine (hf a).bind fun b => ?_
    split
    · exact ih
    · exact ih.bind fun _ => reads_pure _

theorem reads_planSets (options : Options) (sets : List NodeSet) :
    Reads (sets.filterMapM (planComponent options strategy)) :=
  reads_filterMapM (reads_planComponent options) sets

/-! ## The parts of planning a query -/

def checkComponents (options : Options) (g : JoinGraph) (sets : List NodeSet) : PlanM Unit :=
  if options.verify then check (g.requireComponents sets) else pure ()

/-- The sets that are planned for the components. -/
def plannedSets (options : Options) (strategy : Strategy) (components : List NodeSet) :
    PlanM (List NodeSet) :=
  if options.share && decide (1 < components.length) then
    shareComponents options strategy components
  else pure components

theorem planQuery_eq (options : Options) (q : Query) (st : Planning) :
    planQuery options strategy q st =
      (checkComponents options st.graph (st.graph.components q) >>= fun _ =>
        plannedSets options strategy (st.graph.components q) >>= fun sets =>
          sets.filterMapM (planComponent options strategy)) st := by
  rw [planQuery, bind_ok (graph_eq st), checkComponents, plannedSets]
  cases options.verify with
  | false => cases options.share && decide (1 < (st.graph.components q).length) <;> rfl
  | true => cases options.share && decide (1 < (st.graph.components q).length) <;> rfl

theorem checkComponents_eq_ok {g : JoinGraph} {sets : List NodeSet} {u : Unit} {options : Options}
    (h : checkComponents options g sets st = .ok u st') : st' = st := by
  rw [checkComponents] at h
  split at h
  · exact (ofExcept_eq_ok h).2
  · cases h
    rfl

theorem reads_checkComponents (options : Options) (g : JoinGraph) (sets : List NodeSet) :
    Reads (checkComponents options g sets) := by
  rw [checkComponents]
  split
  · exact reads_check _
  · exact reads_pure ()

def checkReduction (options : Options) (r : Reduction) : PlanM Unit :=
  if options.verify then do
    check (JoinGraph.requireDisjoint (r.shared.map (·.members)))
    check ((← graph).requireComponents r.reduced)
  else pure ()

theorem shareComponents_eq (options : Options) (components : List NodeSet) :
    shareComponents options strategy components = reduce strategy components >>= fun r =>
      checkReduction options r >>= fun _ => pure r.reduced := by
  refine bind_congr fun r => ?_
  rw [checkReduction]
  cases options.verify with
  | false => rfl
  | true => simp only [if_true, bind_assoc]

theorem reads_checkReduction (options : Options) (r : Reduction) :
    Reads (checkReduction options r) := by
  rw [checkReduction]
  split
  · exact (reads_check _).bind fun _ => reads_graph.bind fun _ => reads_check _
  · exact reads_pure ()

theorem graphAfter_shareComponents (options : Options) (components : List NodeSet)
    (st : Planning) :
    (shareComponents options strategy components).graphAfter st =
      (reduce strategy components).graphAfter st := by
  rw [shareComponents_eq]
  refine graphAfter_bind_of_reads fun r => ?_
  exact (reads_checkReduction options r).bind fun _ => reads_pure r.reduced

/-- Planning a query leaves the graph as it is, or as the reduction of the components leaves it. -/
theorem graphAfter_planQuery_cases (options : Options) (strategy : Strategy) (q : Query)
    (st : Planning) :
    (planQuery options strategy q).graphAfter st = st.graph ∨
      (planQuery options strategy q).graphAfter st =
        (reduce strategy (st.graph.components q)).graphAfter st := by
  rw [graphAfter_congr (planQuery_eq options q st)]
  rcases graphAfter_bind_cases (checkComponents options st.graph (st.graph.components q)) _ st
    with h | ⟨_, st₁, hok, h⟩
  · exact .inl (h.trans (reads_checkComponents options _ _ st))
  · -- Only the reduction can add nodes; the plans that are made afterwards leave the graph.
    cases checkComponents_eq_ok hok
    rw [h, graphAfter_bind_of_reads (reads_planSets options), plannedSets]
    split
    · exact .inr (graphAfter_shareComponents options _ _)
    · exact .inl rfl

/-! ## Adding nodes -/

/-- The graph has the property afterwards if it had it before. -/
def Keeps (I : JoinGraph → Prop) (x : PlanM α) : Prop := ∀ st, I st.graph → I (x.graphAfter st)

theorem Reads.keeps (hx : x.Reads) : Keeps I x := by
  intro st h
  rwa [hx]

theorem Keeps.bind (hx : Keeps I x) (hf : ∀ a, Keeps I (f a)) : Keeps I (x >>= f) := by
  intro st hst
  have hafter := hx st hst
  rcases graphAfter_bind_cases x f st with h | ⟨a, st', hok, h⟩
  · rwa [h]
  · rw [graphAfter_of_ok hok] at hafter
    rw [h]
    exact hf a st' hafter

theorem keeps_foldlM {f : β → α → PlanM β} (hf : ∀ b a, Keeps I (f b a)) (b : β) (as : List α) :
    Keeps I (as.foldlM f b) := by
  induction as generalizing b with
  | nil => exact (reads_pure b).keeps
  | cons a as ih =>
    rw [List.foldlM_cons]
    exact (hf b a).bind ih

section Adding

variable (hadd : ∀ g p, I g → I (g.add p).1)

include hadd

theorem keeps_addNode (p : Plan) : Keeps I (addNode p) := fun st h => hadd st.graph p h

theorem keeps_shareSubset (r : Reduction) (members : WordSet) :
    Keeps I (shareSubset strategy r members) := by
  refine reads_graph.keeps.bind fun _ => (reads_planSubset _).keeps.bind fun _ => ?_
  split
  · exact (reads_pure r).keeps
  · refine reads_graph.keeps.bind fun _ => (reads_check _).keeps.bind fun _ => ?_
    split
    · exact (keeps_addNode hadd _).bind fun _ => (reads_pure _).keeps
    · exact (reads_pure r).keeps

theorem keeps_reduce (sets : List NodeSet) : Keeps I (reduce strategy sets) := by
  refine reads_graph.keeps.bind fun _ => (reads_check _).keeps.bind fun _ => ?_
  exact keeps_foldlM (keeps_shareSubset hadd) _ _

theorem keeps_planQuery (options : Options) (q : Query) :
    Keeps I (planQuery options strategy q) := by
  intro st h
  rcases graphAfter_planQuery_cases options strategy q st with heq | heq
  · rwa [heq]
  · rw [heq]
    exact keeps_reduce hadd _ st h

theorem keeps_aggregate (options : Options) (paths : List NodeSet) :
    Keeps I (aggregate options strategy paths) := by
  refine reads_graph.keeps.bind fun _ => (reads_check _).keeps.bind fun _ =>
    (keeps_reduce hadd paths).bind fun _ => reads_graph.keeps.bind fun _ => ?_
  split
  · exact (reads_check _).keeps.bind fun _ => (reads_pure _).keeps
  · exact (reads_pure _).keeps

end Adding

end PlanM

end FedPlan
