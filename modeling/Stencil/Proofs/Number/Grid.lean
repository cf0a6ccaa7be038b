import Mathlib.Algebra.Order.Field.Rat
import Mathlib.Tactic.Linarith
import Mathlib.Tactic.FieldSimp
import Mathlib.Tactic.Positivity
import Mathlib.Tactic.Ring
import Stencil.Proofs.Number.ReadBack

/-
Rounding to a grid. Around a quotient the numbers that doubles keep exactly are the multiples of one
spacing, so rounding to a multiple of it gives the nearest of all of them, and of two that are
equally near the one with the even significand.
-/
namespace Stencil

theorem div_floor (num : Nat) {den : Nat} (positive : 0 < den) :
    (num : ℚ) / den = (num / den : Nat) + (num % den : Nat) / (den : ℚ) := by
  have whole : (num : ℚ) = den * (num / den : Nat) + (num % den : Nat) := by
    exact_mod_cast (Nat.div_add_mod num den).symm
  have width : (0 : ℚ) < den := by exact_mod_cast positive
  rw [whole]
  field_simp

theorem floor_between (num : Nat) {den : Nat} (positive : 0 < den) :
    ((num / den : Nat) : ℚ) ≤ (num : ℚ) / den ∧ (num : ℚ) / den < (num / den : Nat) + 1 := by
  have width : (0 : ℚ) < den := by exact_mod_cast positive
  have rest : ((num % den : Nat) : ℚ) < den := by exact_mod_cast Nat.mod_lt num positive
  rw [div_floor num positive]
  have fraction : ((num % den : Nat) : ℚ) / den < 1 := (div_lt_one width).mpr rest
  have least : 0 ≤ ((num % den : Nat) : ℚ) / den := by positivity
  constructor
  · linarith
  · linarith

theorem roundDiv_half (num : Nat) {den : Nat} (positive : 0 < den) :
    (roundDiv num den = num / den ∧ (num : ℚ) / den ≤ (num / den : Nat) + 1 / 2 ∨
      roundDiv num den = num / den + 1 ∧ ((num / den : Nat) : ℚ) + 1 / 2 ≤ (num : ℚ) / den) ∧
    ((num : ℚ) / den = (num / den : Nat) + 1 / 2 → Even (roundDiv num den)) := by
  have width : (0 : ℚ) < den := by exact_mod_cast positive
  have below : ((num % den : Nat) : ℚ) / den < 1 / 2 ↔ 2 * (num % den) < den := by
    rw [div_lt_iff₀ width, ← Nat.cast_lt (α := ℚ)]
    push_cast
    constructor <;> intro less <;> linarith
  have above : 1 / 2 < ((num % den : Nat) : ℚ) / den ↔ den < 2 * (num % den) := by
    rw [lt_div_iff₀ width, ← Nat.cast_lt (α := ℚ)]
    push_cast
    constructor <;> intro less <;> linarith
  rw [div_floor num positive, roundDiv]
  by_cases down : 2 * (num % den) < den
  · have fraction := below.mpr down
    rw [if_pos down]
    exact ⟨Or.inl ⟨rfl, by linarith⟩, fun half => by linarith⟩
  · rw [if_neg down]
    by_cases up : den < 2 * (num % den)
    · have fraction := above.mpr up
      rw [if_pos up]
      exact ⟨Or.inr ⟨rfl, by linarith⟩, fun half => by linarith⟩
    · have low := mt below.mp down
      have high := mt above.mp up
      rw [if_neg up]
      split
      · next even => exact ⟨Or.inl ⟨rfl, by linarith⟩, fun _ => Nat.even_iff.mpr even⟩
      · next odd => exact ⟨Or.inr ⟨rfl, by linarith⟩, fun _ => Nat.even_iff.mpr (by omega)⟩

theorem roundDiv_scale (num den : Nat) {scale : Nat} (positive : 0 < scale) :
    roundDiv (num * scale) (den * scale) = roundDiv num den := by
  have below : 2 * (num % den * scale) < den * scale ↔ 2 * (num % den) < den := by
    rw [← Nat.mul_assoc, Nat.mul_lt_mul_right positive]
  have above : den * scale < 2 * (num % den * scale) ↔ den < 2 * (num % den) := by
    rw [← Nat.mul_assoc, Nat.mul_lt_mul_right positive]
  simp only [roundDiv, Nat.mul_div_mul_right _ _ positive, Nat.mul_mod_mul_right, below, above]

namespace Magnitude

theorem spacing_eq {exponent n : Nat} (low : 2 ^ (52 + exponent) ≤ n)
    (high : n < 2 ^ (53 + exponent)) : spacing n = 2 ^ exponent := by
  have some : n ≠ 0 := by
    have := Nat.two_pow_pos (52 + exponent)
    omega
  have bits : n.log2 = 52 + exponent := by
    have atLeast := (Nat.le_log2 some).mpr low
    have atMost := (Nat.log2_lt some).mpr high
    omega
  rw [spacing, Nat.pow_eq, bits, Nat.add_sub_cancel_left]

theorem spacing_small {n : Nat} (small : n < 2 ^ 53) : spacing n = 1 := by
  by_cases zero : n = 0
  · rw [zero]
    rfl
  · have bits := (Nat.log2_lt zero).mpr small
    have none : n.log2 - 52 = 0 := by omega
    rw [spacing, none]

/-- A number has no more than 53 bits before its spacing, and all of these unless it is small. -/
theorem spacing_range (n : Nat) : ∃ exponent, spacing n = 2 ^ exponent ∧ n < 2 ^ (53 + exponent) ∧
    (exponent = 0 ∨ 2 ^ (52 + exponent) ≤ n) := by
  refine ⟨n.log2 - 52, rfl, ?_, ?_⟩
  · have less := lt_spacing n
    rwa [spacing, Nat.pow_eq, Nat.pow_eq, ← Nat.pow_add] at less
  · by_cases small : n.log2 ≤ 52
    · exact Or.inl (by omega)
    · have whole : 52 + (n.log2 - 52) = n.log2 := by omega
      have some : n ≠ 0 := by
        rintro rfl
        exact small (by decide)
      rw [whole]
      exact Or.inr (Nat.log2_self_le some)

theorem roundUnits_scale (num den : Nat) {scale : Nat} (positive : 0 < scale) :
    roundUnits (num * scale) (den * scale) = roundUnits num den := by
  rw [roundUnits, Nat.mul_div_mul_right _ _ positive, Nat.mul_right_comm,
    roundDiv_scale _ _ positive, roundUnits]

theorem nearest_eq_some {num den : Nat} {m : Magnitude} :
    nearest? num den = some m ↔ m.units = roundUnits num den := by
  obtain ⟨units, below, aligned⟩ := m
  rw [nearest?]
  split
  · simp [eq_comm]
  · next large =>
    constructor
    · rintro ⟨⟩
    · rintro rfl
      exact absurd below large

theorem nearest_ratio {num den other width : Nat} (positive : 0 < den) (wide : 0 < width)
    (same : num * width = other * den) : nearest? num den = nearest? other width := by
  have rounded : roundUnits num den = roundUnits other width := by
    calc roundUnits num den
      _ = roundUnits (num * width) (den * width) := (roundUnits_scale num den wide).symm
      _ = roundUnits (other * den) (width * den) := by rw [same, Nat.mul_comm den]
      _ = roundUnits other width := roundUnits_scale other width positive
  ext m
  rw [nearest_eq_some, nearest_eq_some, rounded]

/-- A number that doubles keep exactly. -/
def Aligned (n : Nat) : Prop := spacing n ∣ n

theorem none_between {exponent q k : Nat} (low : exponent = 0 ∨ 2 ^ 52 ≤ q) (high : q < 2 ^ 53)
    (aligned : Aligned k) : k ≤ q * 2 ^ exponent ∨ (q + 1) * 2 ^ exponent ≤ k := by
  rcases low with rfl | low
  · omega
  by_contra between
  rw [not_or, Nat.not_le, Nat.not_le] at between
  obtain ⟨above, below⟩ := between
  have bottom : 2 ^ (52 + exponent) ≤ k := by
    rw [Nat.pow_add]
    have := Nat.mul_le_mul_right (2 ^ exponent) low
    omega
  have top : k < 2 ^ (53 + exponent) := by
    rw [Nat.pow_add]
    have := Nat.mul_le_mul_right (2 ^ exponent) (Nat.succ_le_of_lt high)
    rw [Nat.succ_eq_add_one] at this
    omega
  rw [Aligned, spacing_eq bottom top] at aligned
  obtain ⟨j, rfl⟩ := aligned
  have positive := Nat.two_pow_pos exponent
  rw [Nat.mul_comm (2 ^ exponent)] at above below
  have more := Nat.lt_of_mul_lt_mul_right above
  have less := Nat.lt_of_mul_lt_mul_right below
  omega

theorem even_significand {exponent r : Nat} (low : exponent = 0 ∨ 2 ^ 52 ≤ r) (high : r ≤ 2 ^ 53)
    (even : Even r) : Even (r * 2 ^ exponent / spacing (r * 2 ^ exponent)) := by
  have positive := Nat.two_pow_pos exponent
  by_cases full : r = 2 ^ 53
  · have carried : r * 2 ^ exponent = 2 ^ 52 * 2 ^ (exponent + 1) := by
      rw [full, ← Nat.pow_add, ← Nat.pow_add]
      congr 1
      omega
    have spaced : spacing (2 ^ 52 * 2 ^ (exponent + 1)) = 2 ^ (exponent + 1) := by
      rw [← Nat.pow_add]
      refine spacing_eq (Nat.le_refl _) (Nat.pow_lt_pow_right (by decide) (by omega))
    rw [carried, spaced, Nat.mul_div_cancel _ (Nat.two_pow_pos _)]
    decide
  · have spaced : spacing (r * 2 ^ exponent) = 2 ^ exponent := by
      rcases low with rfl | low
      · rw [Nat.pow_zero, Nat.mul_one]
        exact spacing_small (by omega)
      · refine spacing_eq ?_ ?_
        · rw [Nat.pow_add]
          exact Nat.mul_le_mul_right _ low
        · rw [Nat.pow_add]
          exact Nat.mul_lt_mul_of_pos_right (by omega) positive
    rwa [spaced, Nat.mul_div_cancel _ positive]

/-- No number that doubles keep exactly is nearer, and if one is equally near then the significand
of this one is even. -/
structure Nearest (x : ℚ) (n : Nat) : Prop where
  aligned : Aligned n
  nearest : ∀ k, Aligned k → |x - n| ≤ |x - k|
  even : ∀ k, Aligned k → |x - n| = |x - k| → k = n ∨ Even (n / spacing n)

theorem near_lower {u a b k : ℚ} (low : a ≤ u) (high : u ≤ b) (half : u - a ≤ b - u)
    (apart : k ≤ a ∨ b ≤ k) :
    |u - a| ≤ |u - k| ∧ (|u - a| = |u - k| → k = a ∨ u - a = b - u) := by
  rw [abs_of_nonneg (sub_nonneg.mpr low)]
  rcases apart with below | above
  · rw [abs_of_nonneg (by linarith)]
    exact ⟨by linarith, fun same => Or.inl (by linarith)⟩
  · rw [abs_of_nonpos (by linarith)]
    exact ⟨by linarith, fun same => Or.inr (by linarith)⟩

theorem near_upper {u a b k : ℚ} (low : a ≤ u) (high : u ≤ b) (half : b - u ≤ u - a)
    (apart : k ≤ a ∨ b ≤ k) :
    |u - b| ≤ |u - k| ∧ (|u - b| = |u - k| → k = b ∨ u - a = b - u) := by
  rw [abs_of_nonpos (sub_nonpos.mpr high)]
  rcases apart with below | above
  · rw [abs_of_nonneg (by linarith)]
    exact ⟨by linarith, fun same => Or.inr (by linarith)⟩
  · rw [abs_of_nonpos (by linarith)]
    exact ⟨by linarith, fun same => Or.inl (by linarith)⟩

theorem nearest_on_grid {exponent q r : Nat} {x : ℚ} (low : exponent = 0 ∨ 2 ^ 52 ≤ q)
    (high : q < 2 ^ 53) (least : q ≤ x) (most : x < q + 1)
    (chosen : r = q ∧ x ≤ q + 1 / 2 ∨ r = q + 1 ∧ (q : ℚ) + 1 / 2 ≤ x)
    (even : x = q + 1 / 2 → Even r) : Nearest (x * 2 ^ exponent) (r * 2 ^ exponent : Nat) := by
  have width : (0 : ℚ) < 2 ^ exponent := by positivity
  have short : r ≤ 2 ^ 53 := by omega
  have full : exponent = 0 ∨ 2 ^ 52 ≤ r := by omega
  have apart {k : Nat} (aligned : Aligned k) :
      (k : ℚ) ≤ q * 2 ^ exponent ∨ (q + 1 : ℚ) * 2 ^ exponent ≤ k := by
    exact_mod_cast none_between low high aligned
  have floored : q * 2 ^ exponent ≤ x * 2 ^ exponent := mul_le_mul_of_nonneg_right least width.le
  have ceiled : x * 2 ^ exponent ≤ (q + 1) * 2 ^ exponent :=
    mul_le_mul_of_nonneg_right most.le width.le
  have near {k : Nat} (aligned : Aligned k) :
      |x * 2 ^ exponent - (r * 2 ^ exponent : Nat)| ≤ |x * 2 ^ exponent - k| ∧
        (|x * 2 ^ exponent - (r * 2 ^ exponent : Nat)| = |x * 2 ^ exponent - k| →
          (k : ℚ) = (r * 2 ^ exponent : Nat) ∨
            x * 2 ^ exponent - q * 2 ^ exponent = (q + 1) * 2 ^ exponent - x * 2 ^ exponent) := by
    rcases chosen with ⟨rfl, half⟩ | ⟨rfl, half⟩
    · have near := mul_le_mul_of_nonneg_right half width.le
      push_cast
      exact near_lower floored ceiled (by linarith) (apart aligned)
    · have near := mul_le_mul_of_nonneg_right half width.le
      push_cast
      exact near_upper floored ceiled (by linarith) (apart aligned)
  refine ⟨aligned_mul r exponent short, fun k aligned => (near aligned).1, fun k aligned same => ?_⟩
  rcases (near aligned).2 same with equal | tie
  · exact Or.inl (by exact_mod_cast equal)
  · have doubled : 2 * x * 2 ^ exponent = (2 * q + 1) * 2 ^ exponent := by linarith
    have half := mul_right_cancel₀ width.ne' doubled
    exact Or.inr (even_significand full short (even (by linarith)))

theorem roundUnits_nearest (num : Nat) {den : Nat} (positive : 0 < den) :
    Nearest ((num : ℚ) / den) (roundUnits num den) := by
  obtain ⟨exponent, spaced, short, full⟩ := spacing_range (num / den)
  have step := Nat.two_pow_pos exponent
  have grid := Nat.mul_pos positive step
  have floor : num / (den * 2 ^ exponent) = num / den / 2 ^ exponent :=
    (Nat.div_div_eq_div_mul num den _).symm
  have high : num / (den * 2 ^ exponent) < 2 ^ 53 := by
    rw [floor, Nat.div_lt_iff_lt_mul step, ← Nat.pow_add]
    exact short
  have low : exponent = 0 ∨ 2 ^ 52 ≤ num / (den * 2 ^ exponent) := by
    rw [floor, Nat.le_div_iff_mul_le step, ← Nat.pow_add]
    exact full
  have scaled : (num : ℚ) / den = (num : ℚ) / (den * 2 ^ exponent : Nat) * 2 ^ exponent := by
    push_cast
    field_simp
  obtain ⟨least, most⟩ := floor_between num grid
  obtain ⟨chosen, even⟩ := roundDiv_half num grid
  rw [roundUnits, spaced, scaled]
  exact nearest_on_grid low high least most chosen even

theorem largest_odd (exponent : Nat) :
    ¬ Even ((2 ^ 53 - 1) * 2 ^ exponent / spacing ((2 ^ 53 - 1) * 2 ^ exponent)) := by
  have spaced : spacing ((2 ^ 53 - 1) * 2 ^ exponent) = 2 ^ exponent := by
    refine spacing_eq ?_ ?_
    · rw [Nat.pow_add]
      exact Nat.mul_le_mul_right _ (by decide)
    · rw [Nat.pow_add]
      exact Nat.mul_lt_mul_of_pos_right (by decide) (Nat.two_pow_pos exponent)
  rw [spaced, Nat.mul_div_cancel _ (Nat.two_pow_pos exponent)]
  decide

section Midpoint

variable {top half n : Nat} {x : ℚ} (apart : top = half + 54)

include apart

theorem first_beyond : (2 ^ 53 - 1 + 1) * 2 ^ (half + 1) = 2 ^ top := by
  rw [apart, Nat.sub_add_cancel (by decide), ← Nat.pow_add]
  congr 1
  omega

theorem last_below : (((2 ^ 53 - 1) * 2 ^ (half + 1) : Nat) : ℚ) = 2 ^ top - 2 * 2 ^ half := by
  rw [apart]
  push_cast
  ring

theorem aligned_below (aligned : Aligned n) (below : n < 2 ^ top) :
    (n : ℚ) ≤ 2 ^ top - 2 * 2 ^ half := by
  have odd : 2 ^ 52 ≤ 2 ^ 53 - 1 ∧ 2 ^ 53 - 1 < 2 ^ 53 := by decide
  rw [← last_below apart, Nat.cast_le]
  refine (none_between (Or.inr odd.1) odd.2 aligned).resolve_right ?_
  rw [first_beyond apart]
  omega

theorem nearest_beyond (near : Nearest x n) (large : 2 ^ top - 2 ^ half ≤ x) : 2 ^ top ≤ n := by
  by_contra short
  have width : (0 : ℚ) < 2 ^ half := by positivity
  have aligned : Aligned (2 ^ top) := by
    rw [← first_beyond apart]
    exact aligned_mul _ _ (by decide)
  have toFirst := near.nearest _ aligned
  have tie := near.even _ aligned
  have low := aligned_below apart near.aligned (Nat.lt_of_not_le short)
  rw [Nat.cast_pow, Nat.cast_ofNat] at toFirst tie
  have inside : x < 2 ^ top := by
    by_contra outside
    rw [not_lt] at outside
    rw [abs_of_nonneg (by linarith), abs_of_nonneg (by linarith)] at toFirst
    linarith
  rw [abs_of_nonneg (by linarith), abs_of_neg (by linarith)] at toFirst tie
  -- only the tie is left, and the number below the midpoint has an odd significand
  have last : n = (2 ^ 53 - 1) * 2 ^ (half + 1) := by
    rw [← Nat.cast_inj (R := ℚ), last_below apart]
    linarith
  rcases tie (by linarith) with same | even
  · omega
  · rw [last] at even
    exact largest_odd (half + 1) even

theorem nearest_within (near : Nearest x n) (small : x < 2 ^ top - 2 ^ half) : n < 2 ^ top := by
  by_contra beyond
  have width : (0 : ℚ) < 2 ^ half := by positivity
  have toLast := near.nearest _ (aligned_mul (2 ^ 53 - 1) (half + 1) (by decide))
  have long : (2 : ℚ) ^ top ≤ n := by exact_mod_cast Nat.le_of_not_lt beyond
  rw [Nat.pow_eq, last_below apart, abs_of_nonpos (by linarith)] at toLast
  rcases le_total x (2 ^ top - 2 * 2 ^ half) with low | high
  · rw [abs_of_nonpos (by linarith)] at toLast
    linarith
  · rw [abs_of_nonneg (by linarith)] at toLast
    linarith

/-- With exponents unbounded, the nearest number is one too large from half a step below the first
of these on. -/
theorem nearest_below_iff (near : Nearest x n) : n < 2 ^ top ↔ x < 2 ^ top - 2 ^ half := by
  constructor
  · intro below
    by_contra large
    exact Nat.not_le.mpr below (nearest_beyond apart near (not_lt.mp large))
  · exact nearest_within apart near

end Midpoint

end Magnitude
end Stencil
