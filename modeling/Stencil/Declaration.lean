import Stencil.Value

/-
A declaration is what a placeholder says about its variable: the name, the kind, and up to two
values, of which `fallback` is used only when there is no other.
-/
namespace Stencil

structure Declaration where
  name : Text
  kind : Kind := .unknown
  value : Option Value := none
  fallback : Option Value := none
  deriving DecidableEq

inductive Key where
  | name
  | kind
  | value
  | fallback
  deriving DecidableEq, Repr

def Key.text : Key → Text
  | .name => "name".toList
  | .kind => "type".toList
  | .value => "value".toList
  | .fallback => "defaultValue".toList

namespace Kind

/-- Whether a value may be given to a placeholder of this kind. Kinds are never converted, and
`unknown` takes every value. -/
def admits (kind : Kind) (value : Value) : Bool := kind = .unknown || value.kind = kind

end Kind

namespace Declaration

def admits (d : Declaration) (value : Value) : Bool := d.kind.admits value

def embedded? (d : Declaration) : Option Value := d.value <|> d.fallback

def sameValue : Option Value → Option Value → Bool
  | none, none => true
  | some a, some b => a.equal b
  | _, _ => false

def equal (a b : Declaration) : Bool :=
  a.name = b.name && a.kind = b.kind && sameValue a.value b.value && sameValue a.fallback b.fallback

end Declaration
end Stencil
