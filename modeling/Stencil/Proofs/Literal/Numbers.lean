import Stencil.Proofs.Literal.Kinds
import Stencil.Proofs.Number.Wider

/-
Number literals are the numerals below the midpoint from which doubles are infinite, and each is
read as the nearest double. Zeros that do not change the number denoted do not change what is read,
and a reader of more texts behind a check of the shape reads the same literals.
-/
namespace Stencil

namespace Numeral

theorem ofDecimal_alike {a b : Numeral} (sign : a.sign.negative = b.sign.negative)
    (magnitude : a.magnitude = b.magnitude) :
    Binary64.ofDecimal a.decimal = Binary64.ofDecimal b.decimal := by
  have width (c : Numeral) : 0 < Nat.pow 10 c.decimal.places := Nat.pow_pos (by decide)
  have apart (c : Numeral) : (Nat.pow 10 c.decimal.places : ℚ) ≠ 0 :=
    Nat.cast_ne_zero.mpr (width c).ne'
  have crossed : a.decimal.digits * Nat.pow 10 b.decimal.places =
      b.decimal.digits * Nat.pow 10 a.decimal.places := by
    rw [← decimal_value, ← decimal_value, div_eq_div_iff (apart a) (apart b)] at magnitude
    exact_mod_cast magnitude
  have nearest : Magnitude.nearest? (a.decimal.digits * Magnitude.one)
      (Nat.pow 10 a.decimal.places) = Magnitude.nearest? (b.decimal.digits * Magnitude.one)
      (Nat.pow 10 b.decimal.places) := by
    refine Magnitude.nearest_ratio (width a) (width b) ?_
    rw [Nat.mul_right_comm, crossed, Nat.mul_right_comm]
  have signs : a.decimal.negative = b.decimal.negative := sign
  rw [Binary64.ofDecimal, Binary64.ofQuotient, nearest, signs]
  rfl

theorem finiteNumber_numeral (a : Numeral) :
    finiteNumber? a.text = (some (Binary64.ofDecimal a.decimal)).filter Binary64.isFinite := by
  rw [finiteNumber?, ofText_numeral, Option.map_some]

theorem finiteNumber_small {a : Numeral} (small : a.magnitude < Binary64.limit) :
    ∃ m, finiteNumber? a.text = some (.finite a.sign.negative m) ∧
      Binary64.Rounds (signed a.sign.negative a.magnitude) a.sign.negative m := by
  rw [← decimal_value] at small ⊢
  obtain ⟨m, found, near⟩ :=
    Binary64.ofQuotient_finite a.sign.negative (Nat.pow_pos (by decide)) small
  refine ⟨m, ?_, near⟩
  have read : Binary64.ofDecimal a.decimal = .finite a.sign.negative m := found
  rw [finiteNumber_numeral, read]
  rfl

theorem finiteNumber_large {a : Numeral} (large : Binary64.limit ≤ a.magnitude) :
    finiteNumber? a.text = none := by
  rw [← decimal_value] at large
  have read : Binary64.ofDecimal a.decimal = .infinite a.sign.negative :=
    Binary64.ofQuotient_infinite a.sign.negative (Nat.pow_pos (by decide)) large
  rw [finiteNumber_numeral, read]
  rfl

theorem finiteNumber_isSome {text : Text} : (finiteNumber? text).isSome ↔
    ∃ a : Numeral, text = a.text ∧ a.magnitude < Binary64.limit := by
  constructor
  · intro found
    obtain ⟨n, read⟩ := Option.isSome_iff_exists.mp found
    obtain ⟨d, decimal, -⟩ := Option.map_eq_some_iff.mp (Option.filter_eq_some_iff.mp read).1
    obtain ⟨a, rfl, -⟩ := ofText_eq_some.mp decimal
    refine ⟨a, rfl, lt_of_not_ge fun large => ?_⟩
    rw [finiteNumber_large large] at read
    cases read
  · rintro ⟨a, rfl, small⟩
    obtain ⟨m, read, -⟩ := finiteNumber_small small
    rw [read]
    rfl

theorem text_ascii (a : Numeral) : ∀ c ∈ a.text, c.toNat < 128 := by
  have digit (list : List (Fin 10)) : ∀ c ∈ digits list, c.toNat < 128 := by
    intro c member
    have range := (Char.isDigit_iff_toNat.mp (digits_are_digits list c member)).2
    change c.toNat ≤ 57 at range
    omega
  refine List.forall_mem_append.mpr ⟨by cases a.sign <;> simp [Sign.text], ?_⟩
  refine List.forall_mem_append.mpr ⟨digit a.whole, fun c member => ?_⟩
  cases behind : digits a.fraction with
  | nil =>
    rw [behind] at member
    cases member
  | cons d rest =>
    rw [behind] at member
    rcases List.mem_cons.mp member with rfl | later
    · decide
    · exact digit a.fraction c (behind ▸ later)

theorem wide_numeral (a : Numeral) :
    Binary64.ofText? a.text = some (.ofDecimal a.decimal) := by
  have known : ∀ c : Char, c.isDigit → c.isDigit ∨ 128 ≤ c.toNat := fun _ => Or.inl
  have whole := (Decimal.isDigits_iff.mp (isDigits_text a.filled)).1
  have all : Decimal.isDigits (digits a.whole ++ digits a.fraction) := by
    rw [digits, digits, ← List.map_append]
    exact isDigits_text (by simp [a.filled])
  rw [text, wide_shaped known a.sign whole (digits_are_digits _) (digits_are_digits _), if_pos all]
  rfl

theorem shaped_of_wide {digit : Char → Prop} (known : ∀ c, digit c → c.isDigit ∨ 128 ≤ c.toNat)
    {text : Text} (shape : Shaped digit text) {n : Binary64}
    (read : Binary64.ofText? text = some n) : ∃ a : Numeral, text = a.text := by
  obtain ⟨sign, whole, fraction, rfl, some, front, back⟩ := shape
  rw [wide_shaped known sign some front back] at read
  split at read
  · next digits =>
    obtain ⟨-, all⟩ := Decimal.isDigits_iff.mp digits
    obtain ⟨first, second⟩ := List.forall_mem_append.mp all
    exact shaped_digits.mp ⟨sign, whole, fraction, rfl, some, first, second⟩
  · cases read

/-- It does not matter that the check of the shape lets other digits through. -/
theorem finiteNumber_wide {digit : Char → Prop} (known : Digits digit) {text : Text}
    {n : Binary64} : finiteNumber? text = some n ↔
      Shaped digit text ∧ Binary64.ofText? text = some n ∧ n.isFinite := by
  have alike (a : Numeral) : finiteNumber? a.text = some n ↔
      Binary64.ofText? a.text = some n ∧ n.isFinite := by
    rw [finiteNumber_numeral, wide_numeral, Option.filter_eq_some_iff]
  constructor
  · intro read
    obtain ⟨a, rfl, -⟩ := finiteNumber_isSome.mp (Option.isSome_of_eq_some read)
    obtain ⟨sign, whole, fraction, shape, some, front, back⟩ := shaped_digits.mpr ⟨a, rfl⟩
    exact ⟨⟨sign, whole, fraction, shape, some, fun c member => known.1 c (front c member),
      fun c member => known.1 c (back c member)⟩, (alike a).mp read⟩
  · rintro ⟨shape, read, finite⟩
    obtain ⟨a, rfl⟩ := shaped_of_wide known.2 shape read
    exact (alike a).mpr ⟨read, finite⟩

end Numeral

namespace Kind

theorem accepts_number {literal : Text} : accepts .number literal ↔
    ∃ a : Numeral, literal.trim = a.text ∧ a.magnitude < Binary64.limit :=
  Numeral.finiteNumber_isSome

theorem read_number {literal : Text} {a : Numeral} (written : literal.trim = a.text) :
    read? .number literal = (finiteNumber? a.text).map .number := by
  rw [← written]
  rfl

theorem read_alike {literal other : Text} {a b : Numeral} (first : literal.trim = a.text)
    (second : other.trim = b.text) (sign : a.sign.negative = b.sign.negative)
    (magnitude : a.magnitude = b.magnitude) :
    read? .number literal = read? .number other := by
  rw [read_number first, read_number second, Numeral.finiteNumber_numeral,
    Numeral.finiteNumber_numeral, Numeral.ofDecimal_alike sign magnitude]

theorem numbers_read_as_nearest (literal : Text) :
    (accepts .number literal ↔
      ∃ a : Numeral, literal.trim = a.text ∧ a.magnitude < Binary64.limit) ∧
    (∀ a : Numeral, literal.trim = a.text → a.magnitude < Binary64.limit →
      ∃ m, read? .number literal = some (.number (.finite a.sign.negative m)) ∧
        Binary64.Rounds (signed a.sign.negative a.magnitude) a.sign.negative m) ∧
    (∀ (a : Numeral) (sign : Sign) (front back : Nat) (other : Text),
      literal.trim = a.text → sign.negative = a.sign.negative →
        other.trim = (a.padded sign front back).text →
          accepts .number other = accepts .number literal ∧
            read? .number other = read? .number literal) ∧
    ((∃ c ∈ literal.trim, 128 ≤ c.toNat) → ¬ accepts .number literal) ∧
    ∀ (digit : Char → Prop) (n : Binary64), Numeral.Digits digit →
      (read? .number literal = some (.number n) ↔ Numeral.Shaped digit literal.trim ∧
        Binary64.ofText? literal.trim = some n ∧ n.isFinite) := by
  refine ⟨accepts_number, ?_, ?_, ?_, ?_⟩
  · intro a written small
    obtain ⟨m, found, near⟩ := Numeral.finiteNumber_small small
    refine ⟨m, ?_, near⟩
    rw [read_number written, found, Option.map_some]
  · intro a sign front back other written same padded
    have alike := read_alike padded written same (a.padded_magnitude sign front back)
    exact ⟨by rw [accepts_eq_read, accepts_eq_read, alike], alike⟩
  · rintro ⟨c, member, large⟩ accepted
    obtain ⟨a, written, -⟩ := accepts_number.mp accepted
    rw [written] at member
    have ascii := a.text_ascii c member
    omega
  · intro digit n known
    rw [← Numeral.finiteNumber_wide known, read?]
    simp

-- The last whole number below the midpoint is read, and the midpoint is not.
example : let midpoint := Nat.pow 2 1024 - Nat.pow 2 970
    accepts .number (Nat.toDigits 10 (midpoint - 1)) ∧
      ¬ accepts .number (Nat.toDigits 10 midpoint) := by
  decide +kernel

theorem padded_number_is_read_alike :
    let a : Numeral := ⟨.none, [7], [5], nofun⟩
    let number : Text := "7.5".toList
    let padded : Text := " +007.50".toList
    let digit := fun c : Char => c.isDigit ∨ c = '٣'
    (∃ m, Binary64.Rounds (signed false a.magnitude) false m ∧
        read? .number number = some (.number (.finite false m)) ∧
        read? .number padded = some (.number (.finite false m)) ∧
        Binary64.ofText? padded.trim = some (.finite false m)) ∧
      Numeral.Shaped digit "٣".toList ∧ ¬ accepts .number "٣".toList := by
  intro a number padded digit
  have small : a.magnitude < Binary64.limit := by decide +kernel
  obtain ⟨-, nearest, alike, -, -⟩ := numbers_read_as_nearest number
  obtain ⟨-, -, -, -, wide⟩ := numbers_read_as_nearest padded
  obtain ⟨-, -, -, refused, -⟩ := numbers_read_as_nearest "٣".toList
  have known : Numeral.Digits digit := by
    refine ⟨fun c ascii => Or.inl ascii, fun c member => member.imp_right ?_⟩
    rintro rfl
    decide
  have other : ∃ c ∈ Text.trim "٣".toList, 128 ≤ c.toNat := ⟨'٣', by decide, by decide⟩
  obtain ⟨m, read, near⟩ := nearest a (by decide) small
  have same : read? .number padded = some (.number (.finite false m)) :=
    (alike a .plus 2 1 padded (by decide) rfl (by decide)).2.trans read
  refine ⟨⟨m, near, read, same, ((wide digit _ known).mp same).2.1⟩, ?_, refused other⟩
  exact ⟨.none, ['٣'], [], rfl, nofun, by simp [digit], nofun⟩

end Kind
end Stencil
