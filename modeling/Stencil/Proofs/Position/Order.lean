import Stencil.Proofs.Number.ReadBack
import Stencil.Proofs.Position.Boundary

/-
The order of printed positions. A later place prints a later position, unless a carriage return
before it has taken the column back on the same line.
-/
namespace Stencil

namespace Text

theorem unbroken_append_plain (before : Text) {middle : Text} (line : '\n' ∉ middle)
    (forward : '\r' ∉ middle) : (before ++ middle).unbroken = before.unbroken ++ middle := by
  induction middle using List.reverseRecOn with
  | nil => simp
  | append_singleton middle c ih =>
    simp only [List.mem_append, List.mem_singleton, not_or] at line forward
    have plain : ¬ (c = '\n' ∨ c = '\r') := not_or.mpr ⟨Ne.symm line.2, Ne.symm forward.2⟩
    rw [← List.append_assoc, unbroken_plain _ plain, ih line.1 forward.1, List.append_assoc]

theorem unbroken_append_broken (before : Text) {middle : Text}
    (broken : '\n' ∈ middle ∨ '\r' ∈ middle) : (before ++ middle).unbroken = middle.unbroken := by
  induction middle using List.reverseRecOn with
  | nil => simp at broken
  | append_singleton middle c ih =>
    rw [← List.append_assoc]
    by_cases last : c = '\n' ∨ c = '\r'
    · rw [unbroken_break _ last, unbroken_break _ last]
    · have earlier : '\n' ∈ middle ∨ '\r' ∈ middle := by
        simp only [List.mem_append, List.mem_singleton, @eq_comm _ _ c] at broken
        simp only [not_or] at last
        simpa [last] using broken
      rw [unbroken_plain _ last, unbroken_plain _ last, ih earlier]

/-- Whether a stretch of text keeps the line and takes the column back: it holds a carriage return
but no line feed, and what follows its last return is no longer than what the text before it has
behind a line break. -/
def Rewinds (before middle : Text) : Prop :=
  '\n' ∉ middle ∧ '\r' ∈ middle ∧ middle.unbroken.length ≤ before.unbroken.length

def Rewound (text : Text) (start stop : Nat) : Prop :=
  ∃ before middle after : Text, text = before ++ middle ++ after ∧ before.bytes = start ∧
    middle.bytes = stop - start ∧ before.Rewinds middle

theorem rewound_iff (before middle after : Text) :
    Rewound (before ++ middle ++ after) before.bytes (before.bytes + middle.bytes) ↔
      before.Rewinds middle := by
  constructor
  · rintro ⟨front, stretch, back, same, first, second, rewinds⟩
    rw [List.append_assoc, List.append_assoc] at same
    obtain ⟨rfl, rest⟩ := append_inj same first.symm
    obtain ⟨rfl, -⟩ := append_inj rest (by omega)
    exact rewinds
  · intro rewinds
    exact ⟨before, middle, after, rfl, rfl, by omega, rewinds⟩

def Paired : Text → Prop
  | [] => True
  | c :: rest => (c = '\r' → rest.head? = some '\n') ∧ Paired rest

instance decidablePaired : (text : Text) → Decidable text.Paired
  | [] => inferInstanceAs (Decidable True)
  | c :: rest =>
    have := decidablePaired rest
    inferInstanceAs (Decidable ((c = '\r' → rest.head? = some '\n') ∧ Paired rest))

theorem paired_feed {front back : Text} (paired : Paired (front ++ '\r' :: back)) :
    back.head? = some '\n' := by
  induction front with
  | nil => exact paired.1 rfl
  | cons c front ih => exact ih paired.2

theorem paired_not_rewinds {before middle after : Text}
    (paired : Paired (before ++ middle ++ after))
    (whole : middle.getLast? = some '\r' → after.head? ≠ some '\n') : ¬ before.Rewinds middle := by
  rintro ⟨line, back, -⟩
  obtain ⟨front, rest, rfl⟩ := List.append_of_mem back
  have parted : before ++ (front ++ '\r' :: rest) ++ after =
      before ++ front ++ '\r' :: (rest ++ after) := by simp
  rw [parted] at paired
  have feed := paired_feed paired
  cases rest with
  | nil => exact whole List.getLast?_concat feed
  | cons c rest =>
    obtain rfl := Option.some.inj feed
    simp at line

end Text

namespace Position

/-- The order of what is printed of positions, by line and then by column. -/
def Before (p q : Position) : Prop := p.line < q.line ∨ p.line = q.line ∧ p.column < q.column

instance (p q : Position) : Decidable (p.Before q) := inferInstanceAs (Decidable (_ ∨ _))

theorem behind_before_iff {before middle : Text} (some : middle ≠ []) :
    (behind before).Before (behind (before ++ middle)) ↔ ¬ before.Rewinds middle := by
  have longer := List.length_pos_iff.mpr some
  simp only [Before, behind, Text.Rewinds, List.count_append]
  -- A line feed decides alone. Without one the columns are compared, which a return starts anew.
  by_cases feed : '\n' ∈ middle
  · have lines := List.count_pos_iff.mpr feed
    simp only [feed, not_true_eq_false, false_and, not_false_eq_true, iff_true]
    omega
  · have lines := List.count_eq_zero.mpr feed
    by_cases back : '\r' ∈ middle
    · rw [Text.unbroken_append_broken before (Or.inr back)]
      simp only [feed, back, lines, not_false_eq_true, true_and]
      omega
    · rw [Text.unbroken_append_plain before feed back, List.length_append]
      simp only [back, lines, false_and, and_false, not_false_eq_true, iff_true]
      omega

theorem atOffset_before_iff {text : Text} {start stop : Nat} (first : text.Boundary start)
    (last : text.Boundary stop) (less : start < stop) :
    (atOffset text start).Before (atOffset text stop) ↔ ¬ text.Rewound start stop := by
  obtain ⟨length, rfl⟩ := Nat.exists_eq_add_of_le (Nat.le_of_lt less)
  obtain ⟨before, middle, after, rfl, rfl, rfl⟩ := Text.boundaries_part first last
  have some : middle ≠ [] := by
    rintro rfl
    exact Nat.lt_irrefl _ less
  rw [Text.rewound_iff, ← behind_before_iff some, atOffset_middle, ← Text.bytes_append,
    atOffset_joint]

theorem atOffset_line_le {text : Text} {start stop : Nat} (first : text.Boundary start)
    (last : text.Boundary stop) (less : start ≤ stop) :
    (atOffset text start).line ≤ (atOffset text stop).line := by
  obtain ⟨length, rfl⟩ := Nat.exists_eq_add_of_le less
  obtain ⟨before, middle, after, rfl, rfl, rfl⟩ := Text.boundaries_part first last
  rw [atOffset_middle, ← Text.bytes_append, atOffset_joint, behind, behind, List.count_append,
    ← Nat.add_assoc]
  exact Nat.le_add_right _ (middle.count '\n')

theorem text_inj {p q : Position} (same : p.text = q.text) :
    p.line = q.line ∧ p.column = q.column := by
  have parts (p : Position) : Text.splitFirst? ':' p.text =
      some (Nat.toDigits 10 p.line, Nat.toDigits 10 p.column) := by
    have digits := Decimal.toDigits_isDigits p.line
    exact Text.splitFirst_eq_some.mpr ⟨rfl, Decimal.digits_hold_no_other digits (by decide)⟩
  have both := parts p
  rw [same, parts q] at both
  obtain ⟨line, column⟩ := Prod.mk.inj (Option.some.inj both)
  have lines := congrArg (Nat.ofDigitChars 10 · 0) line
  have columns := congrArg (Nat.ofDigitChars 10 · 0) column
  simp only [Nat.ofDigitChars_ten_toDigits] at lines columns
  exact ⟨lines.symm, columns.symm⟩

theorem before_text_ne {p q : Position} (before : p.Before q) : p.text ≠ q.text := by
  intro same
  obtain ⟨line, column⟩ := text_inj same
  rcases before with lower | ⟨-, later⟩
  · omega
  · omega

end Position
end Stencil
