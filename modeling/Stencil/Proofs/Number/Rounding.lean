import Stencil.Proofs.Number.Grid

/-
The double nearest to a rational number. It is finite below the midpoint between the largest finite
number and the power of two above it, and infinite from there on.
-/
namespace Stencil

namespace Magnitude

theorem one_pos : 0 < one := by
  unfold one
  generalize 1074 = exponent
  exact Nat.two_pow_pos exponent

theorem ceiling_eq : ceiling = 2 ^ (1024 + 1074) := by
  have sum : 1024 + 1074 = 2098 := rfl
  rw [sum]
  unfold ceiling
  generalize 2098 = exponent
  rfl

theorem ceiling_pos : 0 < ceiling := by
  unfold ceiling
  generalize 2098 = exponent
  exact Nat.two_pow_pos exponent

def zero : Magnitude := ⟨0, ceiling_pos, Nat.dvd_zero _⟩

def value (m : Magnitude) : ℚ := m.units / one

theorem zero_value : zero.value = 0 := by
  rw [value, zero, Nat.cast_zero, zero_div]

/-- The 53 bits that are kept, as a whole number. -/
def significand (m : Magnitude) : Nat := m.units / spacing m.units

end Magnitude

def signed (negative : Bool) (x : ℚ) : ℚ := if negative then -x else x

theorem signed_same (negative : Bool) (x y : ℚ) :
    |signed negative x - signed negative y| = |x - y| := by
  cases negative with
  | false => rfl
  | true =>
    change |-x - -y| = |x - y|
    rw [neg_sub_neg, abs_sub_comm]

theorem signed_apart (negative : Bool) {x y : ℚ} (nonneg : 0 ≤ x) (positive : 0 ≤ y) :
    |signed negative x - signed (!negative) y| = x + y := by
  have sum := abs_of_nonneg (add_nonneg nonneg positive)
  cases negative with
  | false =>
    change |x - -y| = x + y
    rwa [sub_neg_eq_add]
  | true =>
    change |-x - y| = x + y
    rwa [← neg_add', abs_neg]

theorem signed_zero (negative : Bool) : signed negative 0 = 0 := by
  cases negative <;> simp [signed]

namespace Binary64

/-- No finite number is nearer to `x` than the one with this sign and magnitude, and if another one
is equally near then the significand of this one is even. -/
structure Rounds (x : ℚ) (negative : Bool) (m : Magnitude) : Prop where
  nearest : ∀ (other : Bool) (k : Magnitude),
    |x - signed negative m.value| ≤ |x - signed other k.value|
  even : ∀ (other : Bool) (k : Magnitude),
    |x - signed negative m.value| = |x - signed other k.value| →
      signed other k.value = signed negative m.value ∨ Even m.significand

theorem rounds_of_nearest {x : ℚ} {m : Magnitude} (negative : Bool) (nonneg : 0 ≤ x)
    (near : Magnitude.Nearest (x * Magnitude.one) m.units) :
    Rounds (signed negative x) negative m := by
  have unit : (0 : ℚ) < Magnitude.one := Nat.cast_pos.mpr Magnitude.one_pos
  have value_nonneg (k : Magnitude) : 0 ≤ k.value := div_nonneg (Nat.cast_nonneg _) unit.le
  have scaled (k : Magnitude) : |x * Magnitude.one - k.units| = |x - k.value| * Magnitude.one := by
    rw [← abs_of_pos unit, ← abs_mul, abs_of_pos unit, sub_mul, Magnitude.value,
      div_mul_cancel₀ _ unit.ne']
  have closest (k : Magnitude) : |x - m.value| ≤ |x - k.value| := by
    have units := near.nearest k.units k.aligned
    rw [scaled, scaled] at units
    exact le_of_mul_le_mul_right units unit
  have tied (k : Magnitude) (same : |x - m.value| = |x - k.value|) :
      k.value = m.value ∨ Even m.significand := by
    refine (near.even k.units k.aligned ?_).imp_left fun equal => ?_
    · rw [scaled, scaled, same]
    · rw [Magnitude.value, equal, Magnitude.value]
  have toOther (k : Magnitude) : |x - k.value| ≤ x + k.value :=
    abs_le.mpr ⟨by linarith [value_nonneg k], by linarith [value_nonneg k]⟩
  constructor
  · intro other k
    rw [signed_same]
    rcases eq_or_ne other negative with rfl | differ
    · rw [signed_same]
      exact closest k
    · rw [Bool.eq_not.mpr differ, signed_apart negative nonneg (value_nonneg k)]
      exact (closest k).trans (toOther k)
  · intro other k same
    rw [signed_same] at same
    rcases eq_or_ne other negative with rfl | differ
    · rw [signed_same] at same
      exact (tied k same).imp_left fun equal => by rw [equal]
    · rw [Bool.eq_not.mpr differ, signed_apart negative nonneg (value_nonneg k)] at same
      -- Two signs are equally near only around zero.
      have level := le_antisymm (closest k) (same ▸ toOther k)
      refine (tied k level).imp_left fun equal => ?_
      have toZero := closest Magnitude.zero
      rw [same, equal, Magnitude.zero_value, sub_zero, abs_of_nonneg nonneg] at toZero
      have none : m.value = 0 := le_antisymm (by linarith) (value_nonneg m)
      rw [equal, none, signed_zero, signed_zero]

/-- The midpoint between the largest finite number and the power of two above it. -/
def limit : ℚ := 2 ^ 1024 - 2 ^ 970

theorem limit_units : limit * Magnitude.one = 2 ^ (1024 + 1074) - 2 ^ (970 + 1074) := by
  unfold limit Magnitude.one
  generalize 1024 = top, 970 = half, 1074 = scale
  rw [Nat.pow_eq, Nat.cast_pow, Nat.cast_ofNat, sub_mul, ← pow_add, ← pow_add]

theorem nearest_cases (num : Nat) {den : Nat} (positive : 0 < den) :
    (limit ≤ (num : ℚ) / den ∧ Magnitude.nearest? (num * Magnitude.one) den = none) ∨
      (num : ℚ) / den < limit ∧ ∃ m, Magnitude.nearest? (num * Magnitude.one) den = some m ∧
        Magnitude.Nearest ((num : ℚ) / den * Magnitude.one) m.units := by
  have near := Magnitude.roundUnits_nearest (num * Magnitude.one) positive
  rw [Nat.cast_mul, mul_div_right_comm] at near
  have unit : (0 : ℚ) < Magnitude.one := Nat.cast_pos.mpr Magnitude.one_pos
  have apart : 1024 + 1074 = 970 + 1074 + 54 := rfl
  have below := Magnitude.nearest_below_iff apart near
  rw [← limit_units, ← Magnitude.ceiling_eq, mul_lt_mul_iff_left₀ unit] at below
  rw [Magnitude.nearest?]
  split
  · next small => exact Or.inr ⟨below.mp small, _, rfl, near⟩
  · next large => exact Or.inl ⟨not_lt.mp (mt below.mpr large), rfl⟩

theorem ofQuotient_finite {num den : Nat} (negative : Bool) (positive : 0 < den)
    (small : (num : ℚ) / den < limit) : ∃ m, ofQuotient negative num den = .finite negative m ∧
      Rounds (signed negative ((num : ℚ) / den)) negative m := by
  rcases nearest_cases num positive with ⟨large, -⟩ | ⟨-, m, found, near⟩
  · exact absurd small (not_lt.mpr large)
  · refine ⟨m, by rw [ofQuotient, found]; rfl, ?_⟩
    exact rounds_of_nearest negative (div_nonneg (Nat.cast_nonneg _) (Nat.cast_nonneg _)) near

theorem ofQuotient_infinite {num den : Nat} (negative : Bool) (positive : 0 < den)
    (large : limit ≤ (num : ℚ) / den) : ofQuotient negative num den = .infinite negative := by
  rcases nearest_cases num positive with ⟨-, none⟩ | ⟨small, -⟩
  · rw [ofQuotient, none]
    rfl
  · exact absurd large (not_le.mpr small)

end Binary64
end Stencil
