import Stencil.Kind
import Stencil.Number.Shortest

/-
Values of placeholders: those embedded in a template and those supplied when it is rendered.
-/
namespace Stencil

inductive Value where
  | string (content : Text)
  | number (n : Binary64)
  | boolean (b : Bool)
  | null
  | raw (content : Text)
deriving DecidableEq

namespace Value

def kind : Value → Kind
  | .string _ => .string
  | .number _ => .number
  | .boolean _ => .boolean
  | .null => .null
  | .raw _ => .unknown

def text : Value → Text
  | .string content => content
  | .number n => n.text
  | .boolean b => if b then "true".toList else "false".toList
  | .null => "null".toList
  | .raw content => content

/-- The text that stands for the value inside a placeholder: strings are quoted, and nothing
in them is escaped. -/
def literal : Value → Text
  | .string content => '\'' :: (content ++ ['\''])
  | value => value.text

def asString? : Value → Option Text
  | .string content => some content
  | _ => none

def asNumber? : Value → Option Binary64
  | .number n => some n
  | _ => none

def asBoolean? : Value → Option Bool
  | .boolean b => some b
  | _ => none

def isNull (value : Value) : Bool := value == .null

def equal : Value → Value → Bool
  | .number n, .number m => n.equal m
  | a, b => a == b

def ofInt (n : Int) : Value := .number (.ofInt n)

end Value
end Stencil
