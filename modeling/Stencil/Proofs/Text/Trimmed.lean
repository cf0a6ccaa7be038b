import Mathlib.Data.List.Basic
import Mathlib.Data.List.TakeWhile
import Stencil.Text.Blank

/-
Trimmed texts have no blank at either end. Trimming gives one, changes none, and takes off exactly
the blanks around it.
-/
namespace Stencil.Text

def Trimmed (text : Text) : Prop :=
  (∀ c ∈ text.head?, isBlank c = false) ∧ ∀ c ∈ text.getLast?, isBlank c = false

-- An instance that tries all characters must not be found here.
instance (text : Text) : Decidable text.Trimmed :=
  @instDecidableAnd _ _ (Option.decidableForallMem _) (Option.decidableForallMem _)

theorem trimEnd_append_blank (text : Text) {back : Text} (blank : ∀ c ∈ back, isBlank c) :
    trimEnd (text ++ back) = trimEnd text := by
  induction text with
  | nil => exact trimEnd_eq_nil.mpr blank
  | cons c rest ih => simp only [List.cons_append, trimEnd, ih]

theorem trimEnd_of_last {text : Text} (dark : ∀ c ∈ text.getLast?, isBlank c = false) :
    trimEnd text = text := by
  induction text with
  | nil => rfl
  | cons c rest ih =>
    cases rest with
    | nil => simp [trimEnd, dark c rfl]
    | cons d tail =>
      have kept := ih (by simpa using dark)
      rw [trimEnd_cons_of_ne_nil (by simp [kept]), kept]

theorem trimEnd_last (text : Text) : ∀ c ∈ (trimEnd text).getLast?, isBlank c = false := by
  induction text with
  | nil => simp [trimEnd]
  | cons c rest ih =>
    rw [trimEnd]
    split
    · split
      · simp
      · next dark => simpa using dark
    · next kept =>
      cases found : trimEnd rest with
      | nil => exact absurd found kept
      | cons d tail => simpa [found] using ih

theorem trimStart_append_blank {front : Text} (blank : ∀ c ∈ front, isBlank c) (text : Text) :
    trimStart (front ++ text) = trimStart text := List.dropWhile_append_of_pos blank

theorem trimStart_of_head {text : Text} (dark : ∀ c ∈ text.head?, isBlank c = false) :
    trimStart text = text := by
  cases text with
  | nil => rfl
  | cons c rest => simp [trimStart, dark c rfl]

theorem trimStart_head (text : Text) : ∀ c ∈ (trimStart text).head?, isBlank c = false := by
  intro c first
  have dark := List.head?_dropWhile_not isBlank text
  rw [trimStart] at first
  rw [Option.mem_def.mp first] at dark
  simpa using dark

theorem trim_trimmed (text : Text) : (trim text).Trimmed := by
  refine ⟨?_, trimEnd_last _⟩
  obtain ⟨tail, joined, -⟩ := trimEnd_splits (trimStart text)
  have first := trimStart_head text
  intro c member
  rw [joined, List.head?_append, ← trim, Option.mem_def.mp member] at first
  exact first c rfl

/-- Blanks around a trimmed text are exactly what trimming removes. -/
theorem trim_padded {text : Text} (trimmed : text.Trimmed) (front back : Text)
    (before : ∀ c ∈ front, isBlank c) (after : ∀ c ∈ back, isBlank c) :
    trim (front ++ text ++ back) = text := by
  rw [trim, List.append_assoc, trimStart_append_blank before]
  cases text with
  | nil =>
    refine trimEnd_eq_nil.mpr fun c member => after c ?_
    exact (List.dropWhile_sublist isBlank).subset member
  | cons c rest =>
    rw [trimStart_of_head (by simpa using trimmed.1), trimEnd_append_blank _ after,
      trimEnd_of_last trimmed.2]

theorem trim_splits (text : Text) :
    ∃ front back, text = front ++ trim text ++ back ∧
      (∀ c ∈ front, isBlank c) ∧ ∀ c ∈ back, isBlank c := by
  obtain ⟨back, joined, after⟩ := trimEnd_splits (trimStart text)
  refine ⟨text.takeWhile isBlank, back, ?_, fun c => List.mem_takeWhile_imp, after⟩
  rw [List.append_assoc, trim, ← joined]
  exact List.takeWhile_append_dropWhile.symm

theorem trim_of_trimmed {text : Text} (trimmed : text.Trimmed) : trim text = text := by
  simpa using trim_padded trimmed [] [] (by simp) (by simp)

theorem trimmed_between {front back : Text} (some : front ≠ []) (ends : back ≠ [])
    (first : front.Trimmed) (last : back.Trimmed) (middle : Text) :
    (front ++ middle ++ back).Trimmed := by
  constructor
  · rw [List.append_assoc, List.head?_append_of_ne_nil _ some]
    exact first.1
  · rw [List.getLast?_append_of_ne_nil _ ends]
    exact last.2

theorem trim_subset (text : Text) : trim text ⊆ text := by
  obtain ⟨front, back, joined, -⟩ := trim_splits text
  intro c member
  rw [joined]
  exact List.mem_append_left back (List.mem_append_right front member)

end Stencil.Text
