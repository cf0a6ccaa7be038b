import Stencil.Number.Binary64

/-
The text of a number: the shortest decimal that reads back as the same number, nearest to it
among those, written in full without an exponent. Grids of decimals are tried from coarse to
fine, and on each grid only the two neighbours of the number matter.
-/
namespace Stencil

/-- The multiples of `10 ^ zeros / 10 ^ places`. -/
structure Grid where
  zeros : Nat
  places : Nat
deriving DecidableEq, Repr

namespace Magnitude

def exact (m : Magnitude) : Decimal := ⟨false, m.units * Nat.pow 5 1074, 1074⟩

def readsBack (m : Magnitude) (d : Decimal) : Bool :=
  nearest? (d.digits * one) (Nat.pow 10 d.places) == some m

def neighbours (m : Magnitude) (grid : Grid) : List Decimal :=
  let num := m.units * Nat.pow 10 grid.places
  let den := one * Nat.pow 10 grid.zeros
  let lower : Decimal := ⟨false, num / den * Nat.pow 10 grid.zeros, grid.places⟩
  let upper : Decimal := ⟨false, (num / den + 1) * Nat.pow 10 grid.zeros, grid.places⟩
  -- the nearer one first, and the upper one first when both are equally near
  if 2 * (num % den) < den then [lower, upper] else [upper, lower]

def grids (m : Magnitude) : List Grid :=
  let width := (Nat.toDigits 10 (m.units / one)).length
  (List.range width).map (fun k => ⟨width - k, 0⟩) ++
    (List.range (1074 + 1)).map fun k => ⟨0, k⟩

def shortest (m : Magnitude) : Decimal :=
  (m.grids.findSome? fun grid => (m.neighbours grid).find? m.readsBack).getD m.exact

theorem shortest_exact_or_reads (m : Magnitude) :
    m.shortest = m.exact ∨ m.readsBack m.shortest = true := by
  unfold shortest
  cases found : m.grids.findSome? fun grid => (m.neighbours grid).find? m.readsBack with
  | none => exact Or.inl rfl
  | some d =>
    obtain ⟨grid, _, hit⟩ := List.exists_of_findSome?_eq_some found
    exact Or.inr (List.find?_some hit)

end Magnitude

namespace Binary64

def text : Binary64 → Text
  | .nan => "NaN".toList
  | .infinite negative => if negative then "-inf".toList else "inf".toList
  | .finite negative magnitude =>
    Decimal.text ⟨negative, magnitude.shortest.digits, magnitude.shortest.places⟩

-- A whole number has no point, and a large one no exponent.
example : text (ofQuotient false (Nat.pow 10 23) 1) = '1' :: List.replicate 23 '0' := by
  decide +kernel

-- Of two decimals that are equally near the upper is taken.
example : text (ofQuotient false 4503599627370497 4) = "1125899906842624.3".toList := by
  decide +kernel

end Binary64
end Stencil
