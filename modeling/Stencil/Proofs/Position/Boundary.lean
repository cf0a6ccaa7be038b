import Stencil.Proofs.Position
import Stencil.Proofs.Text.Parts

/-
Positions of arbitrary byte offsets. The walk through a text stops at the first character boundary
that is not before the offset, so its position can be counted from the text before that boundary. A
walk may be interrupted anywhere: it does not see how a text is cut into pieces, and a span that is
walked on from its start ends where a walk from the start of the text would.
-/
namespace Stencil

namespace Text

/-- A byte offset between two characters of a text, or at one of its ends. -/
def Boundary (text : Text) (offset : Nat) : Prop :=
  ∃ before after : Text, text = before ++ after ∧ before.bytes = offset

theorem boundary_iff_cut {text : Text} {offset : Nat} :
    text.Boundary offset ↔ (cutAt? offset text).isSome := by
  constructor
  · rintro ⟨before, after, rfl, rfl⟩
    rw [cutAt_bytes]
    rfl
  · intro cut
    obtain ⟨⟨before, after⟩, found⟩ := Option.isSome_iff_exists.mp cut
    obtain ⟨joined, width⟩ := cutAt_joins found
    exact ⟨before, after, joined, width⟩

instance (text : Text) (offset : Nat) : Decidable (text.Boundary offset) :=
  decidable_of_iff _ boundary_iff_cut.symm

theorem boundaries_part {text : Text} {start length : Nat} (first : text.Boundary start)
    (last : text.Boundary (start + length)) :
    ∃ before middle after : Text, text = before ++ middle ++ after ∧ before.bytes = start ∧
      middle.bytes = length := by
  obtain ⟨before, rest, rfl, rfl⟩ := first
  obtain ⟨front, after, same, width⟩ := last
  rcases List.append_eq_append_iff.mp same with ⟨middle, rfl, rfl⟩ | ⟨excess, rfl, rfl⟩
  · rw [bytes_append] at width
    exact ⟨before, middle, after, by simp, rfl, by omega⟩
  · rw [bytes_append] at width
    refine ⟨front ++ excess, [], rest, by simp, rfl, ?_⟩
    rw [bytes_nil]
    omega

theorem slice_boundaries {start stop : Nat} {text middle : Text}
    (slice : slice? start stop text = some middle) : text.Boundary start ∧ text.Boundary stop := by
  obtain ⟨front, back, rfl, rfl, rfl⟩ := slice_joins slice
  refine ⟨⟨front, middle ++ back, by simp, rfl⟩, front ++ middle, back, rfl, ?_⟩
  exact bytes_append front middle

end Text

namespace Position

theorem walkTo_stops (offset : Nat) (p : Position) (text : Text) :
    ∃ before after : Text, text = before ++ after ∧ walkTo offset p text = p.advanceBy before ∧
      (offset ≤ p.offset + before.bytes ∨ after = []) ∧
      ∀ k, text.Boundary k → offset ≤ p.offset + k → before.bytes ≤ k := by
  induction text generalizing p with
  | nil => exact ⟨[], [], rfl, rfl, Or.inr rfl, fun k _ _ => Nat.zero_le k⟩
  | cons c rest ih =>
    by_cases reached : offset ≤ p.offset
    · refine ⟨[], c :: rest, rfl, walkTo_reached reached _, Or.inl reached, ?_⟩
      exact fun k _ _ => Nat.zero_le k
    · obtain ⟨before, after, rfl, walked, stopped, first⟩ := ih (p.advance c)
      rw [advance_offset] at stopped first
      refine ⟨c :: before, after, rfl, ?_, ?_, ?_⟩
      · rw [walkTo, if_neg reached, walked, advanceBy_cons]
      · rwa [Text.bytes_cons, ← Nat.add_assoc]
      · intro k boundary behind
        obtain ⟨front, back, joined, rfl⟩ := boundary
        -- no boundary before the first character will do: the goal is not reached there
        cases front with
        | nil => exact absurd behind reached
        | cons d front =>
          obtain ⟨rfl, rest⟩ := List.cons.inj joined
          rw [Text.bytes_cons, ← Nat.add_assoc] at behind
          have within := first (Text.bytes front) ⟨front, back, rest, rfl⟩ behind
          rw [Text.bytes_cons, Text.bytes_cons]
          omega

theorem atOffset_stops (text : Text) (offset : Nat) :
    ∃ before after : Text, text = before ++ after ∧ atOffset text offset = behind before ∧
      (offset ≤ before.bytes ∨ after = []) ∧
      ∀ k, text.Boundary k → offset ≤ k → before.bytes ≤ k := by
  obtain ⟨before, after, joined, walked, stopped, first⟩ := walkTo_stops offset start text
  have origin : start.offset = 0 := rfl
  simp only [origin, Nat.zero_add] at stopped first
  rw [advanceBy_start] at walked
  exact ⟨before, after, joined, walked, stopped, first⟩

theorem advanceBy_pieces (p : Position) (pieces : List Text) :
    pieces.foldl advanceBy p = p.advanceBy pieces.flatten := by
  induction pieces generalizing p with
  | nil => rfl
  | cons piece pieces ih => rw [List.foldl_cons, ih, List.flatten_cons, advanceBy_append]

theorem advanceBy_first (pieces : List Text) (k : Nat) :
    (pieces.take k).foldl advanceBy start =
      atOffset pieces.flatten (Text.bytes (pieces.take k).flatten) := by
  have parted : pieces.flatten = (pieces.take k).flatten ++ (pieces.drop k).flatten := by
    rw [← List.flatten_append, List.take_append_drop]
  rw [advanceBy_pieces, advanceBy_start, parted, atOffset_joint]

theorem atOffset_middle (before middle after : Text) :
    atOffset (before ++ middle ++ after) before.bytes = behind before := by
  rw [List.append_assoc, atOffset_joint]

/-- The position of a byte offset is counted up to the first boundary at or behind it, and walking
through the text in pieces comes to the positions of the joints. -/
theorem positions_are_counted (text : Text) :
    (∀ offset, ∃ before after : Text, text = before ++ after ∧
      atOffset text offset =
        ⟨1 + before.count '\n', 1 + before.unbroken.length, before.bytes⟩ ∧
      (offset ≤ text.bytes → offset ≤ before.bytes ∧
        ∀ k, text.Boundary k → offset ≤ k → before.bytes ≤ k) ∧
      (text.bytes < offset → before = text)) ∧
    ∀ pieces : List Text, pieces.flatten = text →
      pieces.foldl advanceBy start = atOffset text text.bytes ∧
      ∀ k, (pieces.take k).foldl advanceBy start =
        atOffset text (Text.bytes (pieces.take k).flatten) := by
  refine ⟨fun offset => ?_, fun pieces joined => ?_⟩
  · obtain ⟨before, after, rfl, counted, stopped, first⟩ := atOffset_stops text offset
    have width := Text.bytes_append before after
    refine ⟨before, after, rfl, counted, fun within => ⟨?_, first⟩, fun past => ?_⟩
    · rcases stopped with reached | rfl
      · exact reached
      · rwa [List.append_nil] at within
    · rcases stopped with reached | rfl
      · omega
      · rw [List.append_nil]
  · subst joined
    have whole := advanceBy_first pieces pieces.length
    rw [List.take_length] at whole
    exact ⟨whole, advanceBy_first pieces⟩

theorem offset_inside_a_character_is_rounded_up :
    let text : Text := "aé\r\nü".toList
    let pieces : List Text := ["aé\r".toList, [], "\nü".toList]
    (2 ≤ (atOffset text 2).offset ∧ (atOffset text 2).offset ≤ 3) ∧
      (atOffset text 99).offset = text.bytes ∧
      pieces.foldl advanceBy start = atOffset text text.bytes ∧
      (pieces.take 2).foldl advanceBy start = atOffset text 4 := by
  intro text pieces
  obtain ⟨counted, walked⟩ := positions_are_counted text
  obtain ⟨before, -, -, inside, within, -⟩ := counted 2
  obtain ⟨all, -, -, last, -, past⟩ := counted 99
  obtain ⟨reached, first⟩ := within (by decide)
  obtain ⟨whole, joints⟩ := walked pieces rfl
  refine ⟨⟨?_, ?_⟩, ?_, whole, joints 2⟩
  · rwa [inside]
  · rw [inside]
    exact first 3 (by decide) (by decide)
  · rw [last, past (by decide)]

end Position

namespace Span

open Position

variable {text : Text} {offset length : Nat}

theorem covering_middle (before middle after : Text) :
    covering (before ++ middle ++ after) before.bytes middle.bytes =
      ⟨behind before, behind (before ++ middle)⟩ := by
  have onwards : (behind before).advanceBy middle = behind (before ++ middle) := by
    rw [← advanceBy_start, ← advanceBy_append, advanceBy_start]
  rw [covering, Text.slice_middle, atOffset_middle]
  simp only [onwards]

theorem covering_boundaries (first : text.Boundary offset)
    (last : text.Boundary (offset + length)) :
    covering text offset length = ⟨atOffset text offset, atOffset text (offset + length)⟩ := by
  obtain ⟨before, middle, after, rfl, rfl, rfl⟩ := Text.boundaries_part first last
  rw [covering_middle, atOffset_middle, ← Text.bytes_append, atOffset_joint]

theorem covering_length (first : text.Boundary offset) (last : text.Boundary (offset + length)) :
    (covering text offset length).length = length := by
  obtain ⟨before, middle, after, rfl, rfl, rfl⟩ := Text.boundaries_part first last
  rw [covering_middle, Span.length, behind, behind, Text.bytes_append]
  exact Nat.add_sub_cancel_left before.bytes middle.bytes

theorem covering_apart (apart : ¬ (text.Boundary offset ∧ text.Boundary (offset + length))) :
    covering text offset length = ⟨atOffset text offset, atOffset text offset⟩ := by
  rw [covering]
  cases slice : text.slice? offset (offset + length) with
  | none => rfl
  | some middle => exact absurd (Text.slice_boundaries slice) apart

end Span
end Stencil
