import Stencil.Number.Scientific
import Stencil.Proofs.Number.Numeral
import Stencil.Proofs.Number.Rounding

/-
The reader of numbers with exponents reads more texts than numerals, but a numeral as the same
number. It knows only the ten digits, so of the texts in the shape of a numeral over other digits it
reads no more than the numerals.
-/
namespace Stencil

namespace Magnitude

theorem two_pow_le_ten_pow {exponent k : Nat} (fits : exponent ≤ 43 * k) :
    2 ^ exponent ≤ 10 ^ (13 * k) := by
  calc 2 ^ exponent
    _ ≤ 2 ^ (43 * k) := Nat.pow_le_pow_right (by decide) fits
    _ = (2 ^ 43) ^ k := Nat.pow_mul 2 43 k
    _ ≤ (10 ^ 13) ^ k := Nat.pow_le_pow_left (by decide) k
    _ = 10 ^ (13 * k) := (Nat.pow_mul 10 13 k).symm

theorem roundUnits_tiny {num den : Nat} (tiny : 2 * num < den) : roundUnits num den = 0 := by
  have none : num / den = 0 := Nat.div_eq_of_lt (by omega)
  have single : spacing 0 = 1 := rfl
  have rest : num % den = num := Nat.mod_eq_of_lt (by omega)
  rw [roundUnits, none, single, Nat.mul_one, Nat.mul_one, roundDiv, rest, none, if_pos tiny]

theorem two_ones_le : ∃ zeros ≤ 325, 2 * one ≤ 10 ^ zeros := by
  refine ⟨13 * 25, by decide, ?_⟩
  have double : 2 * one = 2 ^ (1074 + 1) := by
    unfold one
    generalize 1074 = exponent
    exact Nat.pow_succ'.symm
  rw [double]
  exact two_pow_le_ten_pow (by decide)

theorem small_digits {digits places : Nat} (small : digits = 0 ∨ digits.log2 + 326 ≤ places) :
    2 * (digits * one) < Nat.pow 10 places := by
  rw [Nat.pow_eq]
  rcases small with rfl | small
  · rw [Nat.zero_mul, Nat.mul_zero]
    exact Nat.pow_pos (by decide)
  · obtain ⟨zeros, few, wide⟩ := two_ones_le
    have bits : digits < 2 ^ (digits.log2 + 1) := Nat.lt_log2_self
    have positive : 0 < 2 * one := Nat.mul_pos Nat.two_pos one_pos
    calc 2 * (digits * one)
      _ = digits * (2 * one) := Nat.mul_left_comm ..
      _ < 2 ^ (digits.log2 + 1) * (2 * one) := Nat.mul_lt_mul_of_pos_right bits positive
      _ ≤ 10 ^ (digits.log2 + 1) * 10 ^ zeros :=
        Nat.mul_le_mul (Nat.pow_le_pow_left (by decide) _) wide
      _ = 10 ^ (digits.log2 + 1 + zeros) := (Nat.pow_add _ _ _).symm
      _ ≤ 10 ^ places := Nat.pow_le_pow_right (by decide) (by omega)

end Magnitude

theorem Binary64.ofQuotient_tiny {num den : Nat} (negative : Bool)
    (tiny : 2 * (num * Magnitude.one) < den) :
    ofQuotient negative num den = ofQuotient negative 0 1 := by
  have same : Magnitude.nearest? (num * Magnitude.one) den =
      Magnitude.nearest? (0 * Magnitude.one) 1 := by
    ext m
    rw [Magnitude.nearest_eq_some, Magnitude.nearest_eq_some, Magnitude.roundUnits_tiny tiny,
      Magnitude.roundUnits_tiny (by omega)]
  rw [ofQuotient, same, ofQuotient]

namespace Scientific

theorem toDecimal_fraction (negative : Bool) (digits places : Nat) :
    toDecimal ⟨negative, digits, 0 - (places : Int)⟩ = ⟨negative, digits, places⟩ := by
  cases places with
  | zero => simp [toDecimal]
  | succ places =>
    have exponent : 0 - ((places + 1 : Nat) : Int) = Int.negSucc places := by omega
    rw [exponent]
    rfl

theorem toBinary64_fraction (negative : Bool) (digits places : Nat) :
    toBinary64 ⟨negative, digits, 0 - (places : Int)⟩ = .ofDecimal ⟨negative, digits, places⟩ := by
  rw [toBinary64]
  split
  · next small =>
    have tiny : 2 * (digits * Magnitude.one) < Nat.pow 10 places := by
      refine Magnitude.small_digits (small.imp_right fun far => ?_)
      dsimp only at far
      omega
    exact (Binary64.ofQuotient_tiny negative tiny).symm
  · rw [if_neg (by dsimp only; omega), toDecimal_fraction]

end Scientific

namespace Numeral

theorem splitExponent_none {text : Text} (plain : ∀ c ∈ text, c ≠ 'e' ∧ c ≠ 'E') :
    Scientific.splitExponent? text = none := by
  induction text with
  | nil => rfl
  | cons c rest ih =>
    obtain ⟨here, later⟩ := List.forall_mem_cons.mp plain
    rw [Scientific.splitExponent?, ih later]
    simp [here]

/-- Digits are those of numerals, and perhaps others that are not ASCII characters. -/
def Digits (digit : Char → Prop) : Prop :=
  (∀ c, c.isDigit → digit c) ∧ ∀ c, digit c → c.isDigit ∨ 128 ≤ c.toNat

theorem digit_lower {c : Char} (digit : c.isDigit ∨ 128 ≤ c.toNat) : c.toLower = c := by
  apply dif_neg
  rintro ⟨low, high⟩
  change 65 ≤ c.toNat at low
  change c.toNat ≤ 90 at high
  rcases digit with ascii | other
  · have range := (Char.isDigit_iff_toNat.mp ascii).2
    change c.toNat ≤ 57 at range
    omega
  · omega

theorem digit_ne {c d : Char} (digit : c.isDigit ∨ 128 ≤ c.toNat) (plain : d.isDigit = false)
    (ascii : d.toNat < 128) : c ≠ d := by
  rintro rfl
  rcases digit with known | other
  · rw [plain] at known
    cases known
  · omega

variable {digit : Char → Prop}

theorem mantissa_shaped {whole : Text} (free : '.' ∉ whole) (fraction : Text) :
    Scientific.mantissa? (whole ++ pointed fraction) =
      if Decimal.isDigits (whole ++ fraction) then some (whole, fraction) else none := by
  rw [Scientific.mantissa?, splitFirst_pointed free]
  by_cases integral : fraction = []
  · rw [if_pos integral, integral]
    simp [pointed]
  · rw [if_neg integral]
    rfl

theorem scientific_shaped (known : ∀ c, digit c → c.isDigit ∨ 128 ≤ c.toNat) (sign : Sign)
    {whole fraction : Text} (some : whole ≠ []) (front : ∀ c ∈ whole, digit c)
    (back : ∀ c ∈ fraction, digit c) :
    Scientific.ofText? (sign.text ++ (whole ++ pointed fraction)) =
      if Decimal.isDigits (whole ++ fraction) then
        .some (.ofParts sign.negative whole fraction 0) else none := by
  have signless : ∀ c ∈ whole, c ≠ '-' ∧ c ≠ '+' := fun c member =>
    ⟨digit_ne (known c (front c member)) rfl (by decide),
      digit_ne (known c (front c member)) rfl (by decide)⟩
  have free : '.' ∉ whole := fun member =>
    digit_ne (d := '.') (known _ (front _ member)) rfl (by decide) rfl
  have powerless : ∀ c ∈ whole ++ pointed fraction, c ≠ 'e' ∧ c ≠ 'E' := by
    have other {c : Char} (digit : c.isDigit ∨ 128 ≤ c.toNat) : c ≠ 'e' ∧ c ≠ 'E' :=
      ⟨digit_ne digit rfl (by decide), digit_ne digit rfl (by decide)⟩
    refine List.forall_mem_append.mpr ⟨fun c member => other (known c (front c member)), ?_⟩
    cases fraction with
    | nil => simp [pointed]
    | cons d rest =>
      refine List.forall_mem_cons.mpr ⟨by decide, fun c member => other (known c (back c member))⟩
  rw [Scientific.ofText?, splitSign_signed sign (body_first some signless _)]
  dsimp only
  rw [splitExponent_none powerless]
  simp only [Option.bind_eq_bind, Option.bind_some, mantissa_shaped free]
  split <;> rfl

/-- The names of the numbers that are not finite start with letters. -/
theorem wide_shaped (known : ∀ c, digit c → c.isDigit ∨ 128 ≤ c.toNat) (sign : Sign)
    {whole fraction : Text} (some : whole ≠ []) (front : ∀ c ∈ whole, digit c)
    (back : ∀ c ∈ fraction, digit c) :
    Binary64.ofText? (sign.text ++ (whole ++ pointed fraction)) =
      if Decimal.isDigits (whole ++ fraction) then
        .some (.ofDecimal (.ofParts sign.negative whole fraction)) else none := by
  have signless : ∀ c ∈ whole, c ≠ '-' ∧ c ≠ '+' := fun c member =>
    ⟨digit_ne (known c (front c member)) rfl (by decide),
      digit_ne (known c (front c member)) rfl (by decide)⟩
  have unnamed (name : Text) (letter : ∃ d later, name = d :: later ∧ d.isDigit = false ∧
      d.toNat < 128) : (whole ++ pointed fraction).map Char.toLower ≠ name := by
    obtain ⟨d, later, rfl, plain, ascii⟩ := letter
    obtain ⟨c, rest, rfl⟩ := List.exists_cons_of_ne_nil some
    intro same
    have digit := known c (front c List.mem_cons_self)
    have first := (List.cons.inj same).1
    rw [digit_lower digit] at first
    exact digit_ne digit plain ascii first
  rw [Binary64.ofText?, splitSign_signed sign (body_first some signless _)]
  dsimp only
  rw [if_neg (unnamed "nan".toList ⟨'n', ['a', 'n'], rfl, rfl, by decide⟩), if_neg ?infinite,
    scientific_shaped known sign some front back]
  case infinite =>
    rw [Bool.or_eq_true, decide_eq_true_eq, decide_eq_true_eq, not_or]
    exact ⟨unnamed _ ⟨'i', ['n', 'f'], rfl, rfl, by decide⟩,
      unnamed _ ⟨'i', ['n', 'f', 'i', 'n', 'i', 't', 'y'], rfl, rfl, by decide⟩⟩
  split
  · exact congrArg Option.some (Scientific.toBinary64_fraction _ _ _)
  · rfl

end Numeral
end Stencil
