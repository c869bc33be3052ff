import FedPlan.Plan.Estimate
import FedPlan.Proofs.Plan.Merging
import Mathlib.Data.List.Forall2

/-!
# Monotone estimates

An estimate is made by products and quotients that stop at the largest cardinality. They keep the order
there as well, so a plan whose sources announce more is never expected to have fewer results. The more
inputs a source needs, the more positions of its patterns are bound, and the less is expected of it.
-/

namespace FedPlan

theorem Cardinality.joined_mono {a b c d : Cardinality} (hab : a ≤ b) (hcd : c ≤ d)
    (shared : Nat) : joined a c shared ≤ joined b d shared :=
  div_le_div_right _ (mul_le_mul hab hcd)

/-- With three variables only the product is cut off at the bound, with seven the divisor is as well. -/
example : Cardinality.joined .max .max 3 = .ofNat 18446744073 ∧
    Cardinality.joined .max .max 7 = .ofNat 1 := by decide +kernel

/-! ## Raised hints -/

/-- The fragments differ in what they announce about themselves at most, and the second one announces
no less than the first one. A fragment that announces nothing is not changed. -/
structure Fragment.RaisesTo (f g : Fragment) : Prop where
  source : g.source = f.source
  signature : g.signature = f.signature
  hint : Option.Rel (· ≤ ·) f.hint g.hint

theorem Cardinality.getD_le_getD {o o' : Option Cardinality} (h : Option.Rel (· ≤ ·) o o')
    (c : Cardinality) : o.getD c ≤ o'.getD c := by
  cases h with
  | none => exact le_refl c
  | some hle => exact hle

theorem Fragment.RaisesTo.estimate_le {f g : Fragment} (h : f.RaisesTo g) :
    f.estimate ≤ g.estimate := by
  rw [estimate, estimate, h.signature]
  exact Cardinality.getD_le_getD h.hint _

namespace PlanTree

variable {t t' : PlanTree}

/-- The second tree is nested as the first one, with raised hints at its leaves. What the joins store is
not compared. -/
inductive RaisesTo : PlanTree → PlanTree → Prop
  | source {f g : Fragment} (h : f.RaisesTo g) : RaisesTo (.source f) (.source g)
  | join {l l' r r' : PlanTree} (shape shape' : JoinShape) (hl : RaisesTo l l')
      (hr : RaisesTo r r') : RaisesTo (.join l r shape) (.join l' r' shape')

theorem RaisesTo.signature_eq (h : t.RaisesTo t') (ht : t.Accepted) (ht' : t'.Accepted) :
    t'.signature = t.signature := by
  induction h with
  | source h => exact h.signature
  | join shape shape' _ _ ihl ihr =>
    obtain ⟨hl, hr, hshape⟩ := ht
    obtain ⟨hl', hr', hshape'⟩ := ht'
    rw [ihl hl hl', ihr hr hr', hshape] at hshape'
    cases hshape'
    rfl

/-- The signatures stay the same, so each join shares as many variables as before. -/
theorem RaisesTo.estimate_le (h : t.RaisesTo t') (ht : t.Accepted) (ht' : t'.Accepted) :
    t.estimate ≤ t'.estimate := by
  induction h with
  | source h => exact h.estimate_le
  | join shape shape' hleft hright ihl ihr =>
    obtain ⟨hl, hr, hshape⟩ := ht
    obtain ⟨hl', hr', hshape'⟩ := ht'
    rw [hleft.signature_eq hl hl', hright.signature_eq hr hr', hshape] at hshape'
    cases hshape'
    exact Cardinality.joined_mono (ihl hl hl') (ihr hr hr') _

end PlanTree

namespace Plan

theorem exists_raisesTo (p : Plan) {gs : List Fragment}
    (h : List.Forall₂ Fragment.RaisesTo p.leaves gs) :
    ∃ q : Plan, p.tree.RaisesTo q.tree ∧ q.leaves = gs := by
  induction p using Plan.induct generalizing gs with
  | source f =>
    rw [leaves_source, List.forall₂_cons_left_iff] at h
    obtain ⟨g, rest, hg, hrest, rfl⟩ := h
    rw [List.forall₂_nil_left_iff.1 hrest]
    exact ⟨source g, .source hg, rfl⟩
  | join l r p hjoin hl hr =>
    rw [leaves_of_join? hjoin] at h
    have hleft := List.forall₂_take l.leaves.length h
    have hright := List.forall₂_drop l.leaves.length h
    rw [List.take_left] at hleft
    rw [List.drop_left] at hright
    obtain ⟨l', hltree, hlleaves⟩ := hl hleft
    obtain ⟨r', hrtree, hrleaves⟩ := hr hright
    have hlsig : l'.signature = l.signature := hltree.signature_eq l.accepted l'.accepted
    have hrsig : r'.signature = r.signature := hrtree.signature_eq r.accepted r'.accepted
    obtain ⟨q, shape, hq, htree, hqtree⟩ := exists_join?_of_signature_eq hjoin hlsig hrsig
    refine ⟨q, ?_, ?_⟩
    · rw [htree, hqtree]
      exact .join shape shape hltree hrtree
    · rw [leaves_of_join? hq, hlleaves, hrleaves, List.take_append_drop]

/-- Hints can be raised leaf by leaf. The signature stays the same then, and the estimate is not lowered. -/
theorem estimate_mono_hints (p : Plan) :
    (∀ gs, List.Forall₂ Fragment.RaisesTo p.leaves gs →
      ∃ q : Plan, p.tree.RaisesTo q.tree ∧ q.leaves = gs) ∧
    ∀ q : Plan, p.tree.RaisesTo q.tree → q.signature = p.signature ∧ p.estimate ≤ q.estimate := by
  refine ⟨fun gs => exists_raisesTo p, ?_⟩
  intro q h
  exact ⟨h.signature_eq p.accepted q.accepted, h.estimate_le p.accepted q.accepted⟩

end Plan

/-! ## Bound positions -/

variable {inputs inputs' : VarSet}

theorem Term.isBound_mono (h : ∀ v ∈ inputs, v ∈ inputs') (x : Term) :
    x.isBound inputs = true → x.isBound inputs' = true := by
  cases x with
  | var v => simpa [isBound] using h v
  | iri name => exact id
  | blank label => exact id
  | literal value => exact id

theorem Predicate.isBound_mono (h : ∀ v ∈ inputs, v ∈ inputs') (x : Predicate) :
    x.isBound inputs = true → x.isBound inputs' = true := by
  cases x with
  | var v => simpa [isBound] using h v
  | iri name => exact id

namespace Cardinality

variable {a b : Cardinality}

/-- The numbers follow no rule, but each of them is at least as large as those for more bound positions. -/
theorem ofBound_anti : ∀ {s s' p p' o o' : Bool}, (s = true → s' = true) → (p = true → p' = true) →
    (o = true → o' = true) → ofBound s' p' o' ≤ ofBound s p o := by
  decide

theorem ofPattern_anti (h : ∀ v ∈ inputs, v ∈ inputs') (t : TriplePattern) :
    ofPattern inputs' t ≤ ofPattern inputs t :=
  ofBound_anti (t.subject.isBound_mono h) (t.predicate.isBound_mono h) (t.object.isBound_mono h)

theorem joinPatterns_anti (h : ∀ v ∈ inputs, v ∈ inputs') (hab : a ≤ b) (seen : VarSet)
    (ts : List TriplePattern) : joinPatterns inputs' a seen ts ≤ joinPatterns inputs b seen ts := by
  -- The variables that the patterns share do not depend on the inputs, so the divisors are the same.
  induction ts generalizing a b seen with
  | nil => exact hab
  | cons t ts ih => exact ih (joined_mono hab (ofPattern_anti h t) _) _

theorem ofPatterns_anti (h : ∀ v ∈ inputs, v ∈ inputs') (ts : List TriplePattern) :
    ofPatterns inputs' ts ≤ ofPatterns inputs ts := by
  cases ts with
  | nil => exact le_refl max
  | cons t ts => exact joinPatterns_anti h (ofPattern_anti h t) _ ts

end Cardinality

namespace FragmentSpec

variable {spec spec' : FragmentSpec} {f f' : Fragment}

theorem estimate_of_build (h : spec.build = .ok f) (hhint : spec.hint = none) :
    f.estimate = .ofPatterns spec.required spec.triples.eraseDups := by
  obtain ⟨_, hsig, hf⟩ := eq_of_build_eq_ok h
  rw [Fragment.estimate, hf, hhint, hsig]
  rfl

/-- Of two sources that match the same patterns, the one that needs more inputs is expected to have at most
as many results. -/
theorem estimate_anti_required (hbuild : spec.build = .ok f) (hbuild' : spec'.build = .ok f')
    (ts : List TriplePattern) (hspec : spec.triples = ts) (hspec' : spec'.triples = ts)
    (hhint : spec.hint = none) (hhint' : spec'.hint = none)
    (hrequired : ∀ v ∈ spec.required, v ∈ spec'.required) :
    (Plan.source f').estimate ≤ (Plan.source f).estimate := by
  show f'.estimate ≤ f.estimate
  rw [estimate_of_build hbuild hhint, estimate_of_build hbuild' hhint', hspec, hspec']
  exact Cardinality.ofPatterns_anti hrequired ts.eraseDups

/-- What is asked of a book by its number: its title, and what stands in any relation to the title. -/
def bookFacts (required : VarSet) : FragmentSpec where
  source := "facts"
  triples :=
    [⟨.var ⟨"isbn"⟩, .iri ⟨"title"⟩, .var ⟨"title"⟩⟩, ⟨.var ⟨"title"⟩, .var ⟨"p"⟩, .blank "fact"⟩]
  required

/-- With the title as a second input, the quotient of the estimates of the two patterns drops to zero. -/
theorem bookFacts_estimate_anti :
    ∃ f f', (bookFacts (.ofList [⟨"isbn"⟩])).build = .ok f ∧
      (bookFacts (.ofList [⟨"isbn"⟩, ⟨"title"⟩])).build = .ok f' ∧
      f.estimate = .ofNat 10000000 ∧ f'.estimate = .ofNat 0 ∧
      (Plan.source f').estimate ≤ (Plan.source f).estimate := by
  obtain ⟨f, hf⟩ : ∃ f, (bookFacts (.ofList [⟨"isbn"⟩])).build = .ok f := ⟨_, rfl⟩
  obtain ⟨f', hf'⟩ : ∃ f, (bookFacts (.ofList [⟨"isbn"⟩, ⟨"title"⟩])).build = .ok f := ⟨_, rfl⟩
  refine ⟨f, f', hf, hf', ?_, ?_, ?_⟩
  · rw [estimate_of_build hf rfl]
    decide +kernel
  · rw [estimate_of_build hf' rfl]
    decide +kernel
  · exact estimate_anti_required hf hf' _ rfl rfl rfl rfl (by simp [bookFacts])

end FragmentSpec

end FedPlan
