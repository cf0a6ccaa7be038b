import Stencil.Text.Basic

/-
Identifiers name variables and property keys: an ASCII letter, then ASCII letters and digits.
-/
namespace Stencil.Text

def isIdentifier : Text → Bool
  | [] => false
  | c :: rest => c.isAlpha && rest.all Char.isAlphanum

/-- Removes one pair of enclosing single quotes; one quote alone is no pair. -/
def unquote? : Text → Option Text
  | '\'' :: rest => if rest.getLast? = some '\'' then some rest.dropLast else none
  | _ => none

theorem unquote_eq_some {text inner : Text} :
    unquote? text = some inner ↔ text = '\'' :: (inner ++ ['\'']) := by
  unfold unquote?
  split
  · next rest =>
    constructor
    · intro found
      split at found
      · next last =>
        cases found
        obtain ⟨front, rfl⟩ := List.getLast?_eq_some_iff.mp last
        simp
      · cases found
    · intro same
      obtain rfl := (List.cons.inj same).2
      simp
  · next other =>
    constructor
    · intro found
      cases found
    · intro same
      exact absurd same (other _)

example : unquote? ['\''] = none ∧ unquote? ['\'', '\''] = some [] := by decide

end Stencil.Text
