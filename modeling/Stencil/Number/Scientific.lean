import Stencil.Number.Binary64

/-
Numbers written with an exponent, as data formats do. An exponent may be far beyond the range of
a double; such a number is zero or infinite without its power of ten being computed.
-/
namespace Stencil

/-- The number `digits * 10 ^ exponent`, or its opposite when `negative`. -/
structure Scientific where
  negative : Bool
  digits : Nat
  exponent : Int
deriving DecidableEq, Repr

namespace Scientific

def ofParts (negative : Bool) (whole fraction : Text) (exponent : Int) : Scientific :=
  ⟨negative, Nat.ofDigitChars 10 (whole ++ fraction) 0, exponent - fraction.length⟩

def toDecimal (s : Scientific) : Decimal :=
  match s.exponent with
  | .ofNat e => ⟨s.negative, s.digits * Nat.pow 10 e, 0⟩
  | .negSucc e => ⟨s.negative, s.digits, e + 1⟩

def toBinary64 (s : Scientific) : Binary64 :=
  -- below 10 ^ -325 everything rounds to zero, and from 10 ^ 309 on it is infinite
  if s.digits = 0 ∨ s.exponent + s.digits.log2 + 1 ≤ -325 then .ofQuotient s.negative 0 1
  else if 309 ≤ s.exponent then .infinite s.negative
  else .ofDecimal s.toDecimal

def exponent? (text : Text) : Option Int :=
  let (negative, body) := Decimal.splitSign text
  if Decimal.isDigits body then
    let size := Nat.ofDigitChars 10 body 0
    some (if negative then -size else size)
  else none

def splitExponent? : Text → Option (Text × Text)
  | [] => none
  | c :: rest =>
    if c = 'e' || c = 'E' then some ([], rest)
    else (splitExponent? rest).map fun (before, after) => (c :: before, after)

def mantissa? (text : Text) : Option (Text × Text) :=
  let (whole, fraction) := (Text.splitFirst? '.' text).getD (text, [])
  if Decimal.isDigits (whole ++ fraction) then some (whole, fraction) else none

def ofText? (text : Text) : Option Scientific := do
  let (negative, body) := Decimal.splitSign text
  let (mantissa, exponent) ← match splitExponent? body with
    | none => some (body, 0)
    | some (mantissa, rest) => (exponent? rest).map fun e => (mantissa, e)
  let (whole, fraction) ← mantissa? mantissa
  return ofParts negative whole fraction exponent

end Scientific

namespace Binary64

def ofText? (text : Text) : Option Binary64 :=
  let (negative, body) := Decimal.splitSign text
  let word := body.map Char.toLower
  if word = "nan".toList then some .nan
  else if word = "inf".toList || word = "infinity".toList then some (.infinite negative)
  else (Scientific.ofText? text).map Scientific.toBinary64

end Binary64
end Stencil
