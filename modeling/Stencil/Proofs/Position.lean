import Mathlib.Data.List.DropRight
import Stencil.Position

/-
Positions in a text of two parts. A position in the first part does not depend on what follows. One
behind a line feed has the column it has in the second part alone, and is moved down by the lines
before it and on by their bytes. At the joint it can be counted from the first part.
-/
namespace Stencil

/-- What stands behind the last line feed or carriage return. -/
def Text.unbroken (text : Text) : Text := text.rtakeWhile fun c => c ≠ '\n' ∧ c ≠ '\r'

theorem Text.unbroken_break (text : Text) {c : Char} (broken : c = '\n' ∨ c = '\r') :
    Text.unbroken (text ++ [c]) = [] := by
  apply List.rtakeWhile_concat_neg
  simpa [← not_or] using broken

theorem Text.unbroken_plain (text : Text) {c : Char} (plain : ¬ (c = '\n' ∨ c = '\r')) :
    Text.unbroken (text ++ [c]) = text.unbroken ++ [c] := by
  apply List.rtakeWhile_concat_pos
  simpa [← not_or] using plain

namespace Position

/-- The position behind a text, by counting instead of walking. -/
def behind (before : Text) : Position :=
  ⟨1 + before.count '\n', 1 + before.unbroken.length, before.bytes⟩

def below (above : Text) (p : Position) : Position :=
  ⟨p.line + 1 + above.count '\n', p.column, p.offset + above.bytes + 1⟩

theorem advance_offset (p : Position) (c : Char) :
    (p.advance c).offset = p.offset + c.utf8Size := by
  rw [advance]
  split
  · rfl
  · split <;> rfl

theorem advance_line (p : Position) (c : Char) :
    (p.advance c).line = p.line + [c].count '\n' := by
  rw [advance]
  split
  · next feed => simp [feed]
  · next other => split <;> simp [other]

theorem advanceBy_cons (p : Position) (c : Char) (text : Text) :
    p.advanceBy (c :: text) = (p.advance c).advanceBy text := rfl

theorem advanceBy_offset (p : Position) (text : Text) :
    (p.advanceBy text).offset = p.offset + text.bytes := by
  induction text generalizing p with
  | nil => rfl
  | cons c text ih => rw [advanceBy_cons, ih, advance_offset, Text.bytes_cons, Nat.add_assoc]

theorem advanceBy_line (p : Position) (text : Text) :
    (p.advanceBy text).line = p.line + text.count '\n' := by
  induction text generalizing p with
  | nil => rfl
  | cons c text ih =>
    rw [advanceBy_cons, ih, advance_line, Nat.add_assoc, ← List.count_append, List.singleton_append]

theorem advance_column (p : Position) (c : Char) :
    (p.advance c).column = if c = '\n' ∨ c = '\r' then 1 else p.column + 1 := by
  rw [advance]
  split
  · next feed => simp [feed]
  · next other => split <;> simp_all

theorem advanceBy_append (p : Position) (front text : Text) :
    p.advanceBy (front ++ text) = (p.advanceBy front).advanceBy text := List.foldl_append

theorem advanceBy_column (before : Text) :
    (start.advanceBy before).column = 1 + before.unbroken.length := by
  -- from the end, where the last character decides on the column
  induction before using List.reverseRecOn with
  | nil => rfl
  | append_singleton before c ih =>
    have last : (start.advanceBy (before ++ [c])).column =
        ((start.advanceBy before).advance c).column := by
      rw [advanceBy_append]
      rfl
    rw [last, advance_column, ih]
    by_cases broken : c = '\n' ∨ c = '\r'
    · rw [if_pos broken, Text.unbroken_break before broken]
      rfl
    · rw [if_neg broken, Text.unbroken_plain before broken, List.length_append]
      rfl

theorem advanceBy_start (before : Text) : start.advanceBy before = behind before := by
  have line := advanceBy_line start before
  have column := advanceBy_column before
  have offset := advanceBy_offset start before
  rw [behind, ← column]
  generalize start.advanceBy before = p at line offset ⊢
  obtain ⟨pLine, pColumn, pOffset⟩ := p
  simp_all [start]

theorem walkTo_reached {offset : Nat} {p : Position} (reached : offset ≤ p.offset) (text : Text) :
    walkTo offset p text = p := by
  cases text with
  | nil => rfl
  | cons c text => rw [walkTo, if_pos reached]

theorem walkTo_within {offset : Nat} {p : Position} {above : Text}
    (within : offset ≤ p.offset + above.bytes) (rest : Text) :
    walkTo offset p (above ++ rest) = walkTo offset p above := by
  induction above generalizing p with
  | nil => exact walkTo_reached within rest
  | cons c above ih =>
    rw [Text.bytes_cons, ← Nat.add_assoc, ← advance_offset] at within
    rw [List.cons_append, walkTo, walkTo, ih within]

theorem walkTo_past {offset : Nat} {p : Position} {above : Text}
    (past : p.offset + above.bytes ≤ offset) (rest : Text) :
    walkTo offset p (above ++ rest) = walkTo offset (p.advanceBy above) rest := by
  induction above generalizing p with
  | nil => rfl
  | cons c above ih =>
    have positive := Char.utf8Size_pos c
    rw [Text.bytes_cons] at past
    have before : ¬ offset ≤ p.offset := by omega
    rw [List.cons_append, walkTo, if_neg before, advanceBy_cons]
    apply ih
    rw [advance_offset]
    omega

theorem advance_below (above : Text) (p : Position) (c : Char) :
    (p.below above).advance c = (p.advance c).below above := by
  simp only [advance, below]
  split
  · simp only [Position.mk.injEq, true_and]
    omega
  · split
    · simp only [Position.mk.injEq, true_and]
      omega
    · simp only [Position.mk.injEq, true_and]
      omega

theorem walkTo_below (above : Text) (offset : Nat) (p : Position) (text : Text) :
    walkTo (offset + above.bytes + 1) (p.below above) text = (walkTo offset p text).below above := by
  induction text generalizing p with
  | nil => rfl
  | cons c text ih =>
    have same : offset + above.bytes + 1 ≤ (p.below above).offset ↔ offset ≤ p.offset := by
      simp only [below]
      omega
    simp only [walkTo, same, advance_below, ih]
    split <;> rfl

theorem advanceBy_line_feed (above : Text) :
    start.advanceBy (above ++ ['\n']) = start.below above := by
  have last : start.advanceBy (above ++ ['\n']) = (start.advanceBy above).advance '\n' :=
    advanceBy_append start above ['\n']
  have feed : Char.utf8Size '\n' = 1 := by decide
  rw [last, advance, if_pos rfl, advanceBy_line, advanceBy_offset, feed, below]
  congr 1
  exact Nat.add_right_comm start.line (above.count '\n') 1

theorem atOffset_joint (before rest : Text) :
    atOffset (before ++ rest) before.bytes = behind before := by
  have origin : start.offset = 0 := rfl
  have past : start.offset + before.bytes ≤ before.bytes := by omega
  have reached : before.bytes ≤ (start.advanceBy before).offset := by
    rw [advanceBy_offset]
    omega
  rw [atOffset, walkTo_past past, walkTo_reached reached, advanceBy_start]

theorem atOffset_above {above : Text} {offset : Nat} (within : offset ≤ above.bytes)
    (rest : Text) : atOffset (above ++ rest) offset = atOffset above offset :=
  walkTo_within (by rwa [start, Nat.zero_add]) rest

theorem atOffset_below (above under : Text) (offset : Nat) :
    atOffset (above ++ '\n' :: under) (offset + above.bytes + 1) =
      (atOffset under offset).below above := by
  have parted : above ++ '\n' :: under = above ++ ['\n'] ++ under := by simp
  have feed : Text.bytes ['\n'] = 1 := by decide
  have past : start.offset + (above ++ ['\n']).bytes ≤ offset + above.bytes + 1 := by
    have origin : start.offset = 0 := rfl
    rw [Text.bytes_append, feed, origin]
    omega
  rw [atOffset, parted, walkTo_past past, advanceBy_line_feed, walkTo_below]
  rfl

end Position
end Stencil
