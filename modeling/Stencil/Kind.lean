import Stencil.Text.Basic

/-
The kinds a placeholder may declare, and their tags. `unknown` is declared by leaving the type out;
the other four are the concrete kinds, in the order in which literals are tried.
-/
namespace Stencil

inductive Kind where
  | string
  | number
  | boolean
  | null
  | unknown
deriving DecidableEq, Repr

namespace Kind

def all : List Kind := [.string, .number, .boolean, .null, .unknown]

def concrete : List Kind := [.string, .number, .boolean, .null]

def tag : Kind → Text
  | .string => "STRING".toList
  | .number => "NUMBER".toList
  | .boolean => "BOOLEAN".toList
  | .null => "NULL".toList
  | .unknown => "UNKNOWN".toList

def ofTag? (text : Text) : Option Kind := all.find? fun kind => kind.tag = text

theorem ofTag_tag (kind : Kind) : ofTag? kind.tag = some kind := by
  cases kind <;> decide

theorem ofTag_eq_some {text : Text} {kind : Kind} :
    ofTag? text = some kind ↔ text = kind.tag := by
  constructor
  · intro found
    have same := List.find?_some found
    simpa [eq_comm] using same
  · rintro rfl
    exact ofTag_tag kind

end Kind
end Stencil
