import Mathlib.Algebra.Order.Field.Rat
import Mathlib.Tactic.FieldSimp
import Mathlib.Tactic.Ring
import Stencil.Proofs.Number.ReadBack

/-
Numerals as they are written, and the rational numbers they denote. The texts that are read as
decimals are exactly those of numerals, and the decimal that is read is the number denoted.
-/
namespace Stencil

inductive Sign where
  | none
  | plus
  | minus
deriving DecidableEq

namespace Sign

def text : Sign → Text
  | .none => []
  | .plus => ['+']
  | .minus => ['-']

def negative : Sign → Bool
  | .minus => true
  | _ => false

end Sign

/-- A sign, digits, and those behind a point. Without the latter there is no point. -/
structure Numeral where
  sign : Sign
  whole : List (Fin 10)
  fraction : List (Fin 10)
  filled : whole ≠ []

namespace Numeral

def digits (list : List (Fin 10)) : Text := list.map fun digit : Fin 10 => Nat.digitChar digit.val

def pointed : Text → Text
  | [] => []
  | fraction => '.' :: fraction

def text (a : Numeral) : Text := a.sign.text ++ (digits a.whole ++ pointed (digits a.fraction))

def wholeValue : List (Fin 10) → ℚ
  | [] => 0
  | digit :: rest => digit.val * 10 ^ rest.length + wholeValue rest

def fractionValue : List (Fin 10) → ℚ
  | [] => 0
  | digit :: rest => (digit.val + fractionValue rest) / 10

def magnitude (a : Numeral) : ℚ := wholeValue a.whole + fractionValue a.fraction

def decimal (a : Numeral) : Decimal :=
  .ofParts a.sign.negative (digits a.whole) (digits a.fraction)

/-- The shape of a numeral, where a digit may be any character of a class. -/
def Shaped (digit : Char → Prop) (text : Text) : Prop :=
  ∃ (sign : Sign) (whole fraction : Text), text = sign.text ++ (whole ++ pointed fraction) ∧
    whole ≠ [] ∧ (∀ c ∈ whole, digit c) ∧ ∀ c ∈ fraction, digit c

theorem digit_of_char {c : Char} (digit : c.isDigit) : ∃ d : Fin 10, Nat.digitChar d = c := by
  obtain ⟨low, high⟩ := Char.isDigit_iff_toNat.mp digit
  change 48 ≤ c.toNat at low
  change c.toNat ≤ 57 at high
  have small : c.toNat - 48 < 10 := by omega
  refine ⟨⟨c.toNat - 48, small⟩, Char.toNat_inj.mp ?_⟩
  rw [Nat.toNat_digitChar_of_lt_ten small]
  omega

theorem digits_of_text {text : Text} (all : ∀ c ∈ text, c.isDigit) :
    ∃ list, digits list = text := by
  induction text with
  | nil => exact ⟨[], rfl⟩
  | cons c rest ih =>
    obtain ⟨here, later⟩ := List.forall_mem_cons.mp all
    obtain ⟨d, rfl⟩ := digit_of_char here
    obtain ⟨list, rfl⟩ := ih later
    exact ⟨d :: list, rfl⟩

theorem digits_are_digits (list : List (Fin 10)) : ∀ c ∈ digits list, c.isDigit := by
  intro c member
  obtain ⟨d, -, rfl⟩ := List.mem_map.mp member
  rw [Nat.isDigit_digitChar]
  exact decide_eq_true d.isLt

theorem shaped_digits {text : Text} :
    Shaped (fun c => c.isDigit) text ↔ ∃ a : Numeral, text = a.text := by
  constructor
  · rintro ⟨sign, whole, fraction, rfl, some, front, back⟩
    obtain ⟨first, rfl⟩ := digits_of_text front
    obtain ⟨second, rfl⟩ := digits_of_text back
    exact ⟨⟨sign, first, second, fun empty => some (by rw [empty]; rfl)⟩, rfl⟩
  · rintro ⟨a, rfl⟩
    refine ⟨a.sign, digits a.whole, digits a.fraction, rfl, ?_, digits_are_digits _,
      digits_are_digits _⟩
    exact fun empty => a.filled (List.map_eq_nil_iff.mp empty)

theorem splitSign_signed (sign : Sign) {body : Text}
    (plain : ∀ c ∈ body.head?, c ≠ '-' ∧ c ≠ '+') :
    Decimal.splitSign (sign.text ++ body) = (sign.negative, body) := by
  cases sign with
  | none =>
    cases body with
    | nil => rfl
    | cons c rest =>
      obtain ⟨minus, plus⟩ := plain c rfl
      change Decimal.splitSign (c :: rest) = (false, c :: rest)
      rw [Decimal.splitSign]
      · exact fun _ same => minus (List.cons.inj same).1
      · exact fun _ same => plus (List.cons.inj same).1
  | plus => rfl
  | minus => rfl

theorem splitSign_joins (text : Text) :
    ∃ sign : Sign, text = sign.text ++ (Decimal.splitSign text).2 := by
  unfold Decimal.splitSign
  split
  · exact ⟨.minus, rfl⟩
  · exact ⟨.plus, rfl⟩
  · exact ⟨.none, rfl⟩

theorem splitFirst_pointed {whole : Text} (free : '.' ∉ whole) (fraction : Text) :
    Text.splitFirst? '.' (whole ++ pointed fraction) =
      if fraction = [] then none else some (whole, fraction) := by
  cases fraction with
  | nil => simpa [pointed] using Text.splitFirst_eq_none.mpr free
  | cons c rest => exact Text.splitFirst_eq_some.mpr ⟨rfl, free⟩

theorem isDigits_text {list : List (Fin 10)} (filled : list ≠ []) :
    Decimal.isDigits (digits list) :=
  Decimal.isDigits_iff.mpr ⟨fun empty => filled (List.map_eq_nil_iff.mp empty),
    digits_are_digits list⟩

theorem body_first {whole : Text} (some : whole ≠ []) (digit : ∀ c ∈ whole, c ≠ '-' ∧ c ≠ '+')
    (rest : Text) : ∀ c ∈ (whole ++ rest).head?, c ≠ '-' ∧ c ≠ '+' := by
  rw [List.head?_append_of_ne_nil _ some]
  exact fun c first => digit c (List.mem_of_head? first)

theorem ofText_numeral (a : Numeral) : Decimal.ofText? a.text = some a.decimal := by
  have whole := isDigits_text a.filled
  have plain : ∀ c ∈ digits a.whole, c ≠ '-' ∧ c ≠ '+' := by
    intro c member
    have digit := digits_are_digits _ c member
    constructor
    · rintro rfl
      cases digit
    · rintro rfl
      cases digit
  have free := Decimal.digits_hold_no_other (c := '.') whole (by decide)
  have first := body_first (Decimal.isDigits_iff.mp whole).1 plain (pointed (digits a.fraction))
  rw [Decimal.ofText?, text, splitSign_signed a.sign first]
  dsimp only
  rw [splitFirst_pointed free]
  by_cases integral : a.fraction = []
  · have none : digits a.fraction = [] := by rw [integral]; rfl
    rw [if_pos none, none, pointed, List.append_nil, decimal, none]
    dsimp only
    rw [if_pos whole]
  · have behind := isDigits_text integral
    rw [if_neg (Decimal.isDigits_iff.mp behind).1]
    dsimp only
    rw [whole, behind]
    rfl

theorem numeral_of_decimal {text : Text} {d : Decimal} (read : Decimal.ofText? text = some d) :
    ∃ a : Numeral, text = a.text := by
  rw [← shaped_digits]
  obtain ⟨sign, joined⟩ := splitSign_joins text
  rw [Decimal.ofText?] at read
  dsimp only at read
  generalize (Decimal.splitSign text).2 = body at joined read
  split at read
  · split at read
    · next digits =>
      obtain ⟨some, all⟩ := Decimal.isDigits_iff.mp digits
      exact ⟨sign, body, [], by simpa [pointed] using joined, some, all, by simp⟩
    · cases read
  · next whole fraction cut =>
    split at read
    · next digits =>
      rw [Bool.and_eq_true] at digits
      obtain ⟨some, front⟩ := Decimal.isDigits_iff.mp digits.1
      obtain ⟨more, back⟩ := Decimal.isDigits_iff.mp digits.2
      refine ⟨sign, whole, fraction, ?_, some, front, back⟩
      obtain ⟨c, rest, rfl⟩ := List.exists_cons_of_ne_nil more
      rw [joined, (Text.splitFirst_eq_some.mp cut).1]
      rfl
    · cases read

theorem ofText_eq_some {text : Text} {d : Decimal} :
    Decimal.ofText? text = some d ↔ ∃ a : Numeral, text = a.text ∧ d = a.decimal := by
  constructor
  · intro read
    obtain ⟨a, rfl⟩ := numeral_of_decimal read
    rw [ofText_numeral] at read
    exact ⟨a, rfl, (Option.some.inj read).symm⟩
  · rintro ⟨a, rfl, rfl⟩
    exact ofText_numeral a

theorem digits_length (list : List (Fin 10)) : (digits list).length = list.length :=
  List.length_map _

theorem ofDigitChars_cons (digit : Fin 10) (rest : List (Fin 10)) :
    Nat.ofDigitChars 10 (digits (digit :: rest)) 0 =
      digit.val * 10 ^ rest.length + Nat.ofDigitChars 10 (digits rest) 0 := by
  have character : (Nat.digitChar digit.val).toNat - '0'.toNat = digit.val :=
    Nat.toNat_digitChar_sub_48_of_lt_ten digit.isLt
  rw [digits, List.map_cons, Nat.ofDigitChars_cons, character, Nat.mul_zero, Nat.zero_add,
    Nat.ofDigitChars_eq_ofDigitChars_zero, ← digits, digits_length, Nat.mul_comm]

theorem whole_value (list : List (Fin 10)) :
    (Nat.ofDigitChars 10 (digits list) 0 : ℚ) = wholeValue list := by
  induction list with
  | nil => rfl
  | cons digit rest ih =>
    rw [ofDigitChars_cons, wholeValue, ← ih]
    push_cast
    rfl

theorem fraction_value (list : List (Fin 10)) :
    (Nat.ofDigitChars 10 (digits list) 0 : ℚ) / 10 ^ list.length = fractionValue list := by
  induction list with
  | nil => exact zero_div _
  | cons digit rest ih =>
    rw [ofDigitChars_cons, fractionValue, ← ih, List.length_cons, pow_succ]
    push_cast
    field_simp

theorem decimal_value (a : Numeral) :
    (a.decimal.digits : ℚ) / (Nat.pow 10 a.decimal.places : Nat) = a.magnitude := by
  have joined : a.decimal.digits = 10 ^ a.fraction.length * Nat.ofDigitChars 10 (digits a.whole) 0 +
      Nat.ofDigitChars 10 (digits a.fraction) 0 := by
    rw [decimal, Decimal.ofParts, Nat.ofDigitChars_append, Nat.ofDigitChars_eq_ofDigitChars_zero,
      digits_length]
  have places : a.decimal.places = a.fraction.length := digits_length a.fraction
  rw [magnitude, ← whole_value, ← fraction_value, joined, places, Nat.pow_eq]
  push_cast
  field_simp

/-- The numeral with another sign, and with zeros in front and behind. -/
def padded (a : Numeral) (sign : Sign) (front back : Nat) : Numeral where
  sign := sign
  whole := List.replicate front 0 ++ a.whole
  fraction := a.fraction ++ List.replicate back 0
  filled := by simp [a.filled]

theorem wholeValue_padded (front : Nat) (list : List (Fin 10)) :
    wholeValue (List.replicate front 0 ++ list) = wholeValue list := by
  induction front with
  | zero => rfl
  | succ front ih => simpa [wholeValue, List.replicate_succ] using ih

theorem fractionValue_padded (list : List (Fin 10)) (back : Nat) :
    fractionValue (list ++ List.replicate back 0) = fractionValue list := by
  induction list with
  | nil =>
    induction back with
    | zero => rfl
    | succ back ih => simpa [fractionValue, List.replicate_succ] using ih
  | cons digit rest ih => rw [List.cons_append, fractionValue, ih, fractionValue]

theorem padded_magnitude (a : Numeral) (sign : Sign) (front back : Nat) :
    (a.padded sign front back).magnitude = a.magnitude := by
  rw [magnitude, padded, wholeValue_padded, fractionValue_padded, magnitude]

end Numeral
end Stencil
