import Stencil.Text.Basic

/-
Decimal numbers written in full: an optional sign, ASCII digits, and optionally a point with more
digits after it. There is no exponent, and the sign of a zero is kept.
-/
namespace Stencil

/-- The number `digits / 10 ^ places`, or its opposite when `negative`. -/
structure Decimal where
  negative : Bool
  digits : Nat
  places : Nat
deriving DecidableEq, Repr

namespace Decimal

def isDigits (text : Text) : Bool := !text.isEmpty && text.all Char.isDigit

def splitSign : Text → Bool × Text
  | '-' :: rest => (true, rest)
  | '+' :: rest => (false, rest)
  | rest => (false, rest)

def ofParts (negative : Bool) (whole fraction : Text) : Decimal :=
  ⟨negative, Nat.ofDigitChars 10 (whole ++ fraction) 0, fraction.length⟩

def ofText? (text : Text) : Option Decimal :=
  let (negative, body) := splitSign text
  match Text.splitFirst? '.' body with
  | none => if isDigits body then some (ofParts negative body []) else none
  | some (whole, fraction) =>
    if isDigits whole && isDigits fraction then some (ofParts negative whole fraction) else none

def padded (width n : Nat) : Text := (Nat.toDigits 10 n).leftpad width '0'

def magnitudeText (d : Decimal) : Text :=
  let whole := Nat.toDigits 10 (d.digits / Nat.pow 10 d.places)
  if d.places = 0 then whole
  else whole ++ '.' :: padded d.places (d.digits % Nat.pow 10 d.places)

def text (d : Decimal) : Text :=
  if d.negative then '-' :: d.magnitudeText else d.magnitudeText

end Decimal
end Stencil
