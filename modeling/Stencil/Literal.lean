import Stencil.Value
import Stencil.Text.Blank
import Stencil.Text.Identifier

/-
The literals of each kind: quoted text on one line, decimal numbers that are not too large, `true`
and `false`, `null`, and for `unknown` anything at all. Blanks around a literal do not count.
-/
namespace Stencil

/-- A pair of quotes around text without a line feed; quotes inside are plain characters. -/
def isQuoted (text : Text) : Bool :=
  2 ≤ text.length && text.head? = some '\'' && text.getLast? = some '\'' && !text.contains '\n'

def finiteNumber? (text : Text) : Option Binary64 :=
  ((Decimal.ofText? text).map Binary64.ofDecimal).filter Binary64.isFinite

namespace Kind

def accepts (kind : Kind) (literal : Text) : Bool :=
  let body := literal.trim
  match kind with
  | .string => isQuoted body
  | .number => (finiteNumber? body).isSome
  | .boolean => body == "true".toList || body == "false".toList
  | .null => body == "null".toList
  | .unknown => true

def read? (kind : Kind) (literal : Text) : Option Value :=
  let body := literal.trim
  match kind with
  | .string => (body.unquote?.filter fun content => !content.contains '\n').map .string
  | .number => (finiteNumber? body).map .number
  | .boolean =>
    if body = "true".toList then some (.boolean true)
    else if body = "false".toList then some (.boolean false)
    else none
  | .null => if body = "null".toList then some .null else none
  | .unknown => some (.raw body)

def detect (literal : Text) : Kind := (concrete.find? (·.accepts literal)).getD .unknown

end Kind

structure Verdict where
  valid : Bool
  detected : Kind
deriving DecidableEq, Repr

def Verdict.of (declared : Kind) (literal : Text) : Verdict :=
  if declared.accepts literal then ⟨true, declared⟩
  else
    let others := Kind.concrete.filter (· ≠ declared)
    ⟨false, (others.find? (·.accepts literal)).getD .unknown⟩

end Stencil
