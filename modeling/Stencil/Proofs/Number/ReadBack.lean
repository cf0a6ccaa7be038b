import Stencil.Number.Shortest
import Stencil.Proofs.Text.Parts

/-
A finite number reads back from its text: a decimal from its digits, and a magnitude from the
shortest decimal chosen for it.
-/
namespace Stencil

namespace Decimal

theorem isDigits_iff {text : Text} : isDigits text ↔ text ≠ [] ∧ ∀ c ∈ text, c.isDigit := by
  cases text with
  | nil => simp [isDigits]
  | cons c rest => simp [isDigits]

theorem toDigits_isDigits (n : Nat) : isDigits (Nat.toDigits 10 n) :=
  isDigits_iff.mpr ⟨Nat.toDigits_ne_nil, fun _ member =>
    Nat.isDigit_of_mem_toDigits (by decide) (by decide) member⟩

theorem padded_isDigits (width n : Nat) : isDigits (padded width n) := by
  obtain ⟨some, digits⟩ := isDigits_iff.mp (toDigits_isDigits n)
  refine isDigits_iff.mpr ⟨by simp [padded, List.leftpad, some], ?_⟩
  intro c member
  rcases List.mem_append.mp member with pad | digit
  · rw [(List.mem_replicate.mp pad).2]
    decide
  · exact digits c digit

theorem padded_length {width n : Nat} (some : 0 < width) (short : n < Nat.pow 10 width) :
    (padded width n).length = width := by
  have fits := (Nat.length_toDigits_le_iff (by decide) some).mpr short
  rw [padded, List.length_leftpad]
  omega

theorem padded_value (width n : Nat) : Nat.ofDigitChars 10 (padded width n) 0 = n := by
  simp [padded, List.leftpad, Nat.ofDigitChars_append]

theorem digits_hold_no_other {text : Text} {c : Char} (digits : isDigits text)
    (other : c.isDigit = false) : c ∉ text := by
  intro member
  have digit := (isDigits_iff.mp digits).2 c member
  rw [other] at digit
  cases digit

theorem splitSign_of_digits {text : Text} (digits : isDigits text) (rest : Text) :
    splitSign (text ++ rest) = (false, text ++ rest) := by
  have minus := digits_hold_no_other (c := '-') digits (by decide)
  have plus := digits_hold_no_other (c := '+') digits (by decide)
  cases text with
  | nil => simp [isDigits] at digits
  | cons c tail =>
    simp only [List.mem_cons, not_or] at minus plus
    rw [List.cons_append, splitSign]
    · exact fun _ same => minus.1 (List.cons.inj same).1.symm
    · exact fun _ same => plus.1 (List.cons.inj same).1.symm

theorem splitSign_text (d : Decimal) : splitSign d.text = (d.negative, d.magnitudeText) := by
  have plain : splitSign d.magnitudeText = (false, d.magnitudeText) := by
    have digits := toDigits_isDigits (d.digits / Nat.pow 10 d.places)
    rw [magnitudeText]
    split
    · simpa using splitSign_of_digits digits []
    · exact splitSign_of_digits digits _
  rw [text]
  split
  · next negative => rw [splitSign, negative]
  · next positive => rw [plain, Bool.eq_false_iff.mpr positive]

theorem ofText_text (d : Decimal) : ofText? d.text = some d := by
  have whole := toDigits_isDigits (d.digits / Nat.pow 10 d.places)
  have noPoint := digits_hold_no_other (c := '.') whole (by decide)
  rw [ofText?, splitSign_text]
  by_cases integral : d.places = 0
  · have body : d.magnitudeText = Nat.toDigits 10 (d.digits / Nat.pow 10 d.places) := by
      rw [magnitudeText, if_pos integral]
    simp only [body, Text.splitFirst_eq_none.mpr noPoint, whole, ↓reduceIte, ofParts,
      List.append_nil, Nat.ofDigitChars_ten_toDigits, List.length_nil]
    rw [integral, Nat.pow_eq, Nat.pow_zero, Nat.div_one, ← integral]
  · have fraction := padded_isDigits d.places (d.digits % Nat.pow 10 d.places)
    have short : d.digits % Nat.pow 10 d.places < Nat.pow 10 d.places :=
      Nat.mod_lt d.digits (Nat.pow_pos (by decide))
    have width := padded_length (by omega) short
    have body : Text.splitFirst? '.' d.magnitudeText =
        some (Nat.toDigits 10 (d.digits / Nat.pow 10 d.places),
          padded d.places (d.digits % Nat.pow 10 d.places)) := by
      rw [magnitudeText, if_neg integral]
      exact Text.splitFirst_eq_some.mpr ⟨rfl, noPoint⟩
    simp only [body, whole, fraction, Bool.and_self, ↓reduceIte, ofParts,
      Nat.ofDigitChars_append, Nat.ofDigitChars_ten_toDigits, width]
    rw [Nat.ofDigitChars_eq_ofDigitChars_zero, padded_value, width, Nat.pow_eq,
      Nat.div_add_mod]

end Decimal

theorem roundDiv_mul (quotient : Nat) {den : Nat} (positive : 0 < den) :
    roundDiv (quotient * den) den = quotient := by
  simp [roundDiv, Nat.mul_div_cancel quotient positive, positive]

namespace Magnitude

theorem spacing_pos (units : Nat) : 0 < spacing units := Nat.two_pow_pos _

/-- A magnitude is on its own grid, so rounding leaves it alone. -/
theorem nearest_of_exact (m : Magnitude) {scale : Nat} (positive : 0 < scale) :
    nearest? (m.units * scale) scale = some m := by
  obtain ⟨steps, even⟩ := m.aligned
  have whole : m.units * scale / scale = m.units := Nat.mul_div_cancel _ positive
  have steady : roundUnits (m.units * scale) scale = m.units := by
    have product : m.units * scale = steps * (scale * spacing m.units) := by
      calc m.units * scale = spacing m.units * steps * scale := by rw [← even]
        _ = steps * (scale * spacing m.units) := by ac_rfl
    rw [roundUnits, whole, product, roundDiv_mul _ (Nat.mul_pos positive (spacing_pos _)),
      Nat.mul_comm]
    exact even.symm
  simp [nearest?, steady, m.below]

theorem nearest_of_decimal (m : Magnitude) (places : Nat) :
    nearest? (m.units * Nat.pow 5 places * Nat.pow 2 places) (Nat.pow 10 places) = some m := by
  have scaled : m.units * Nat.pow 5 places * Nat.pow 2 places = m.units * Nat.pow 10 places := by
    rw [Nat.pow_eq, Nat.pow_eq, Nat.pow_eq, Nat.mul_assoc, ← Nat.mul_pow]
  rw [scaled]
  exact m.nearest_of_exact (Nat.pow_pos (by decide))

theorem exact_readsBack (m : Magnitude) : m.readsBack m.exact = true := by
  unfold readsBack exact one
  generalize 1074 = places
  exact beq_iff_eq.mpr (m.nearest_of_decimal places)

theorem shortest_readsBack (m : Magnitude) : m.readsBack m.shortest = true := by
  rcases m.shortest_exact_or_reads with same | reads
  · rw [same]
    exact m.exact_readsBack
  · exact reads

end Magnitude

theorem Binary64.ofDecimal_shortest (negative : Bool) (m : Magnitude) :
    ofDecimal ⟨negative, m.shortest.digits, m.shortest.places⟩ = .finite negative m := by
  have reads := m.shortest_readsBack
  rw [Magnitude.readsBack, beq_iff_eq] at reads
  rw [ofDecimal, ofQuotient, reads, Option.map_some, Option.getD_some]

end Stencil
