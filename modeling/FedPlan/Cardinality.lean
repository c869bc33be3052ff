/-!
# Cardinalities

Numbers of results are counted up to `2 ^ 64 - 1`; a larger number counts as that bound. Products
and powers are taken in this sense, and a quotient drops its fraction.
-/

namespace FedPlan

structure Cardinality where
  count : Nat
  count_lt : count < UInt64.size
deriving DecidableEq

namespace Cardinality

/-- The nearest cardinality, the bound for a number that exceeds it. -/
def ofNat (n : Nat) : Cardinality where
  count := min n (UInt64.size - 1)
  count_lt := Nat.lt_of_le_of_lt (Nat.min_le_right ..) (by decide)

def max : Cardinality := ofNat (UInt64.size - 1)

instance : LE Cardinality := ⟨fun a b => a.count ≤ b.count⟩

instance (a b : Cardinality) : Decidable (a ≤ b) :=
  inferInstanceAs (Decidable (a.count ≤ b.count))

instance : Mul Cardinality := ⟨fun a b => ofNat (a.count * b.count)⟩

instance : Div Cardinality := ⟨fun a b => ofNat (a.count / b.count)⟩

def power (base exponent : Nat) : Cardinality := ofNat (base.pow exponent)

def text (c : Cardinality) : String := toString c.count

/-! ## Order -/

variable {a b c d : Cardinality}

theorem le_refl (a : Cardinality) : a ≤ a := Nat.le_refl a.count

theorem ofNat_le_ofNat {m n : Nat} (h : m ≤ n) : ofNat m ≤ ofNat n := by
  show min m _ ≤ min n _
  omega

theorem mul_le_mul (hab : a ≤ b) (hcd : c ≤ d) : a * c ≤ b * d :=
  ofNat_le_ofNat (Nat.mul_le_mul hab hcd)

theorem div_le_div_right (c : Cardinality) (h : a ≤ b) : a / c ≤ b / c :=
  ofNat_le_ofNat (Nat.div_le_div_right h)

end Cardinality

end FedPlan
