import Stencil.Number.Scientific
import Stencil.Source

/-
Bindings written as one JSON object whose members are strings, numbers, booleans and nulls. Arrays
and objects are no values here, and numbers that are too large are refused.
-/
namespace Stencil

namespace JsonObject

inductive Token where
  | opening
  | closing
  | colon
  | comma
  | value (value : Value)
  deriving DecidableEq

def isSpace (c : Char) : Bool := c = ' ' || c = '\t' || c = '\n' || c = '\r'

def hexDigit? (c : Char) : Option Nat :=
  if c.isDigit then some (c.toNat - '0'.toNat)
  else if 'a' ≤ c ∧ c ≤ 'f' then some (c.toNat - 'a'.toNat + 10)
  else if 'A' ≤ c ∧ c ≤ 'F' then some (c.toNat - 'A'.toNat + 10)
  else none

def hex4? (a b c d : Char) : Option Nat := do
  let high := (← hexDigit? a) * 16 + (← hexDigit? b)
  let low := (← hexDigit? c) * 16 + (← hexDigit? d)
  return high * 256 + low

def escape? (c : Char) : Option Nat :=
  match c with
  | '"' => some 0x22
  | '\\' => some 0x5C
  | '/' => some 0x2F
  | 'b' => some 0x8
  | 'f' => some 0xC
  | 'n' => some 0xA
  | 'r' => some 0xD
  | 't' => some 0x9
  | _ => none

/-- The code points and surrogate halves of a string after its opening quote, and what follows
its closing quote. -/
def units? : Text → Option (List Nat × Text)
  | [] => none
  | c :: rest =>
    if c = '"' then some ([], rest)
    else if c = '\\' then
      match rest with
      | 'u' :: a :: b :: c :: d :: rest => do
        let unit ← hex4? a b c d
        let (units, after) ← units? rest
        return (unit :: units, after)
      | letter :: rest => do
        let unit ← escape? letter
        let (units, after) ← units? rest
        return (unit :: units, after)
      | [] => none
    else if c.toNat < 0x20 then none
    else do
      let (units, after) ← units? rest
      return (c.toNat :: units, after)

def isHigh (unit : Nat) : Bool := 0xD800 ≤ unit && unit < 0xDC00

def isLow (unit : Nat) : Bool := 0xDC00 ≤ unit && unit < 0xE000

/-- Joins surrogate pairs; a half without its partner is no text. -/
def characters? : List Nat → Option Text
  | [] => some []
  | [unit] => if isHigh unit || isLow unit then none else some [Char.ofNat unit]
  | unit :: next :: rest =>
    if isHigh unit then
      if isLow next then
        (characters? rest).map
          (Char.ofNat (0x10000 + (unit - 0xD800) * 0x400 + (next - 0xDC00)) :: ·)
      else none
    else if isLow unit then none
    else (characters? (next :: rest)).map (Char.ofNat unit :: ·)

def isNumeric (c : Char) : Bool :=
  c.isDigit || c = '-' || c = '+' || c = '.' || c = 'e' || c = 'E'

def isWhole (text : Text) : Bool :=
  Decimal.isDigits text && (text.length = 1 || text.head? ≠ some '0')

def number? (text : Text) : Option Binary64 := do
  let (negative, body) := match text with
    | '-' :: rest => (true, rest)
    | rest => (false, rest)
  let (mantissa, exponent) ← match Scientific.splitExponent? body with
    | none => some (body, 0)
    | some (mantissa, rest) => (Scientific.exponent? rest).map fun e => (mantissa, e)
  let (whole, fraction) ← match Text.splitFirst? '.' mantissa with
    | none => some (mantissa, [])
    | some (whole, fraction) => if Decimal.isDigits fraction then some (whole, fraction) else none
  let n := (Scientific.ofParts negative whole fraction exponent).toBinary64
  if isWhole whole && n.isFinite then some n else none

def words : List (Text × Value) :=
  [("true".toList, .boolean true), ("false".toList, .boolean false), ("null".toList, .null)]

def word? : List (Text × Value) → Text → Option (Value × Text)
  | [], _ => none
  | (word, value) :: others, text =>
    match Text.after? word text with
    | some rest => some (value, rest)
    | none => word? others text

def token? (c : Char) (rest : Text) : Option (Token × Text) :=
  match c with
  | '{' => some (.opening, rest)
  | '}' => some (.closing, rest)
  | ':' => some (.colon, rest)
  | ',' => some (.comma, rest)
  | '"' => do
    let (units, after) ← units? rest
    let content ← characters? units
    return (.value (.string content), after)
  | _ =>
    if isNumeric c then
      (number? (c :: rest.takeWhile isNumeric)).map fun n =>
        (.value (.number n), rest.dropWhile isNumeric)
    else (word? words (c :: rest)).map fun (value, after) => (.value value, after)

/-- All tokens, one at a time: each takes at least one character. -/
def tokens? : Nat → Text → Option (List Token)
  | _, [] => some []
  | 0, _ :: _ => none
  | fuel + 1, c :: rest =>
    if isSpace c then tokens? fuel rest
    else do
      let (token, after) ← token? c rest
      return token :: (← tokens? fuel after)

def members? : List Token → Option (List (Text × Value))
  | [.value (.string name), .colon, .value value, .closing] => some [(name, value)]
  | .value (.string name) :: .colon :: .value value :: .comma :: rest =>
    (members? rest).map ((name, value) :: ·)
  | _ => none

def object? : List Token → Option (List (Text × Value))
  | [.opening, .closing] => some []
  | .opening :: rest => members? rest
  | _ => none

end JsonObject

def Bindings.ofJson? (text : Text) : Option Bindings := do
  let tokens ← JsonObject.tokens? text.length text
  return Bindings.ofPairs (← JsonObject.object? tokens)

end Stencil
