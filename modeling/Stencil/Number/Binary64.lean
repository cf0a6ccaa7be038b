import Stencil.Number.Decimal

/-
Double-precision numbers. A finite magnitude is a multiple of `2 ^ -1074`, the smallest positive
one, so each number has one representation apart from the two zeros and rounding is done on
whole numbers.
-/
namespace Stencil

def roundDiv (num den : Nat) : Nat :=
  let floor := num / den
  let twice := 2 * (num % den)
  if twice < den then floor
  else if den < twice then floor + 1
  else if floor % 2 = 0 then floor
  else floor + 1

theorem roundDiv_le (num den : Nat) : roundDiv num den ≤ num / den + 1 := by
  unfold roundDiv
  dsimp only
  split
  · omega
  · split
    · omega
    · split <;> omega

namespace Magnitude

def one : Nat := Nat.pow 2 1074

/-- The first magnitude, in units, that is too large to be finite. -/
def ceiling : Nat := Nat.pow 2 2098

/-- The distance from a magnitude to the next one up: 53 significant bits are kept. -/
def spacing (units : Nat) : Nat := Nat.pow 2 (units.log2 - 52)

end Magnitude

structure Magnitude where
  units : Nat
  below : units < Magnitude.ceiling
  aligned : Magnitude.spacing units ∣ units
deriving DecidableEq

namespace Magnitude

def roundUnits (num den : Nat) : Nat :=
  roundDiv num (den * spacing (num / den)) * spacing (num / den)

theorem lt_spacing (units : Nat) : units < Nat.pow 2 53 * spacing units := by
  rw [spacing, Nat.pow_eq, Nat.pow_eq, ← Nat.pow_add]
  exact Nat.lt_of_lt_of_le Nat.lt_log2_self (Nat.pow_le_pow_right (by omega) (by omega))

theorem aligned_mul (significand exponent : Nat) (short : significand ≤ Nat.pow 2 53) :
    spacing (significand * Nat.pow 2 exponent) ∣ significand * Nat.pow 2 exponent := by
  rw [Nat.pow_eq] at short ⊢
  by_cases zero : significand * 2 ^ exponent = 0
  · rw [zero]
    exact Nat.dvd_zero _
  rw [spacing, Nat.pow_eq]
  by_cases full : significand = 2 ^ 53
  · rw [full, ← Nat.pow_add, Nat.log2_two_pow]
    exact Nat.pow_dvd_pow 2 (by omega)
  · refine Nat.dvd_trans (Nat.pow_dvd_pow 2 ?_) (Nat.dvd_mul_left (2 ^ exponent) significand)
    have less : significand * 2 ^ exponent < 2 ^ (53 + exponent) := by
      rw [Nat.pow_add]
      exact Nat.mul_lt_mul_of_pos_right (by omega) (Nat.two_pow_pos exponent)
    have := (Nat.log2_lt zero).mpr less
    omega

theorem roundUnits_aligned (num den : Nat) :
    spacing (roundUnits num den) ∣ roundUnits num den := by
  refine aligned_mul _ _ ?_
  refine Nat.le_trans (roundDiv_le _ _) ?_
  rw [← Nat.div_div_eq_div_mul]
  have less := lt_spacing (num / den)
  have positive : 0 < spacing (num / den) := Nat.two_pow_pos _
  exact (Nat.div_lt_iff_lt_mul positive).mpr less

def nearest? (num den : Nat) : Option Magnitude :=
  if below : roundUnits num den < ceiling then
    some ⟨roundUnits num den, below, roundUnits_aligned num den⟩
  else none

end Magnitude

inductive Binary64 where
  | nan
  | infinite (negative : Bool)
  | finite (negative : Bool) (magnitude : Magnitude)
deriving DecidableEq

namespace Binary64

def isFinite : Binary64 → Bool
  | .finite _ _ => true
  | _ => false

/-- Numeric equality: the two zeros are equal, and `nan` equals nothing. -/
def equal : Binary64 → Binary64 → Bool
  | .nan, _ => false
  | .infinite n, .infinite m => n == m
  | .finite n a, .finite m b => a.units == b.units && (n == m || a.units == 0)
  | _, _ => false

def ofQuotient (negative : Bool) (num den : Nat) : Binary64 :=
  ((Magnitude.nearest? (num * Magnitude.one) den).map (finite negative)).getD (infinite negative)

def ofDecimal (d : Decimal) : Binary64 := ofQuotient d.negative d.digits (Nat.pow 10 d.places)

def ofInt (n : Int) : Binary64 := ofQuotient (n < 0) n.natAbs 1

end Binary64
end Stencil
