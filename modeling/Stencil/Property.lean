import Stencil.Text.Blank
import Stencil.Text.Identifier

/-
A property is a key and a value on either side of the first colon of a segment. Blanks around
both are dropped, line feeds among them, but a value stays on one line.
-/
namespace Stencil

structure Property where
  key : Text
  value : Text
  deriving DecidableEq, Repr

namespace Property

def ofText? (segment : Text) : Option Property := do
  let (left, right) ← Text.splitFirst? ':' segment
  let key := left.trim
  let value := right.trim
  if key.isIdentifier && !value.isEmpty && !value.contains '\n' then some ⟨key, value⟩ else none

def lookup? (key : Text) (properties : List Property) : Option Text :=
  (properties.find? (·.key = key)).map (·.value)

-- A later colon belongs to the value.
example : ofText? "key : a:b ".toList = some ⟨"key".toList, "a:b".toList⟩ := by decide

end Property
end Stencil
