import Stencil.Text.Basic

/-
Blank characters are those with the Unicode property White_Space, and trimming removes them
from both ends. Zero-width spaces and byte order marks are not blank.
-/
namespace Stencil

def blankRanges : List (Nat × Nat) :=
  [(0x9, 0xD), (0x20, 0x20), (0x85, 0x85), (0xA0, 0xA0), (0x1680, 0x1680), (0x2000, 0x200A),
    (0x2028, 0x2029), (0x202F, 0x202F), (0x205F, 0x205F), (0x3000, 0x3000)]

def isBlank (c : Char) : Bool :=
  blankRanges.any fun (first, last) => first ≤ c.toNat && c.toNat ≤ last

namespace Text

def trimStart (text : Text) : Text := text.dropWhile isBlank

def trimEnd : Text → Text
  | [] => []
  | c :: rest =>
    match trimEnd rest with
    | [] => if isBlank c then [] else [c]
    | kept => c :: kept

def trim (text : Text) : Text := trimEnd (trimStart text)

theorem trimEnd_cons_of_ne_nil {c : Char} {rest : Text} (kept : trimEnd rest ≠ []) :
    trimEnd (c :: rest) = c :: trimEnd rest := by
  rw [trimEnd]
  split
  · next empty => exact absurd empty kept
  · rfl

theorem trimEnd_splits (text : Text) :
    ∃ tail, text = trimEnd text ++ tail ∧ ∀ c ∈ tail, isBlank c := by
  induction text with
  | nil => exact ⟨[], by simp [trimEnd]⟩
  | cons c rest ih =>
    obtain ⟨tail, joined, blank⟩ := ih
    rw [trimEnd]
    split
    · next empty =>
      rw [empty, List.nil_append] at joined
      subst joined
      by_cases dark : isBlank c
      · exact ⟨c :: rest, by simp [dark], by simpa [dark] using blank⟩
      · exact ⟨rest, by simp [dark], blank⟩
    · exact ⟨tail, by rw [List.cons_append, ← joined], blank⟩

theorem trimEnd_eq_nil {text : Text} : trimEnd text = [] ↔ ∀ c ∈ text, isBlank c := by
  constructor
  · intro empty
    obtain ⟨tail, joined, blank⟩ := trimEnd_splits text
    rw [empty, List.nil_append] at joined
    exact joined ▸ blank
  · intro blank
    induction text with
    | nil => rfl
    | cons c rest ih =>
      have empty := ih fun d member => blank d (List.mem_cons_of_mem c member)
      simp [trimEnd, empty, blank c List.mem_cons_self]

end Text
end Stencil
