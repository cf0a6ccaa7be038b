import Stencil.Proofs.Envelope.Anchor
import Stencil.Proofs.Envelope.Search
import Stencil.Proofs.Text.Marks

/-
Where the envelopes of one line stand among the marks of that line: each starts at the first open
mark that is not behind it, and ends at the close mark its reach prefers among those with at least a
character before them.
-/
namespace Stencil

theorem Text.append_overlap {a b c d : Text} (same : a ++ b = c ++ d) (less : a.bytes < c.bytes) :
    ∃ mid : Text, mid ≠ [] ∧ c = a ++ mid ∧ b = mid ++ d := by
  rcases List.append_eq_append_iff.mp same with ⟨mid, rfl, rfl⟩ | ⟨mid, rfl, rfl⟩
  · refine ⟨mid, ?_, rfl, rfl⟩
    rintro rfl
    simp at less
  · rw [bytes_append] at less
    omega

/-- Whether an envelope ends at the first of two offsets rather than at the second. -/
def Reach.Prefers : Reach → Nat → Nat → Prop
  | .greedy, j, k => k ≤ j
  | .lazy, j, k => j ≤ k

theorem Reach.prefers_add {reach : Reach} {j k : Nat} (shift : Nat) (better : reach.Prefers j k) :
    reach.Prefers (shift + j) (shift + k) := by
  cases reach with
  | greedy => exact Nat.add_le_add_left better shift
  | lazy => exact Nat.add_le_add_left better shift

namespace Envelope

theorem openMark_bytes : openMark.bytes = 3 := by decide

theorem closeMark_bytes : closeMark.bytes = 2 := by decide

theorem firstClose_first {text body rest : Text} (found : firstClose? text = some (body, rest)) :
    ∃ stem, body = stem ++ closeMark ∧
      ∀ before after, text = before ++ closeMark ++ after → stem.bytes ≤ before.bytes := by
  induction text generalizing body with
  | nil => cases found
  | cons c tail ih =>
    rw [firstClose?] at found
    split at found
    · obtain ⟨rfl, rfl⟩ := Prod.mk.inj (Option.some.inj found)
      exact ⟨[], rfl, fun before _ _ => Nat.zero_le before.bytes⟩
    · next elsewhere =>
      split at found
      · cases found
      · obtain ⟨⟨inner, after⟩, deeper, same⟩ := Option.map_eq_some_iff.mp found
        obtain ⟨rfl, rfl⟩ := Prod.mk.inj same
        obtain ⟨stem, rfl, first⟩ := ih deeper
        refine ⟨c :: stem, rfl, fun before after joined => ?_⟩
        cases before with
        | nil =>
          rw [List.nil_append] at joined
          rw [Text.after_eq_some.mpr joined] at elsewhere
          cases elsewhere
        | cons d before =>
          obtain ⟨rfl, rfl⟩ := List.cons.inj joined
          have := first before after rfl
          simp only [Text.bytes_cons]
          omega

theorem lastClose_last {text body rest : Text} (line : '\n' ∉ text)
    (found : lastClose? text = some (body, rest)) :
    ∃ stem, body = stem ++ closeMark ∧
      ∀ before after, text = before ++ closeMark ++ after → before.bytes ≤ stem.bytes := by
  induction text generalizing body with
  | nil => cases found
  | cons c tail ih =>
    simp only [List.mem_cons, not_or] at line
    rw [lastClose?, if_neg (Ne.symm line.1)] at found
    split at found
    · next inner after deeper =>
      obtain ⟨rfl, rfl⟩ := Prod.mk.inj (Option.some.inj found)
      obtain ⟨stem, rfl, last⟩ := ih line.2 deeper
      refine ⟨c :: stem, rfl, fun before after joined => ?_⟩
      cases before with
      | nil => exact Nat.zero_le _
      | cons d before =>
        obtain ⟨rfl, rfl⟩ := List.cons.inj joined
        have := last before after rfl
        simp only [Text.bytes_cons]
        omega
    · next nothing =>
      obtain ⟨after, -, same⟩ := Option.map_eq_some_iff.mp found
      obtain ⟨rfl, rfl⟩ := Prod.mk.inj same
      refine ⟨[], rfl, fun before later joined => ?_⟩
      cases before with
      | nil => exact Nat.le_refl _
      | cons d before =>
        obtain ⟨rfl, rfl⟩ := List.cons.inj joined
        have inside : '\n' ∉ before := fun member => line.2 (by simp [member])
        have closes := lastClose_isSome.mpr ⟨before, later, rfl, inside⟩
        have absent : lastClose? (before ++ closeMark ++ later) = none := nothing
        rw [absent] at closes
        cases closes

theorem close_preferred {reach : Reach} {text body rest : Text} (line : '\n' ∉ text)
    (found : close? reach text = some (body, rest)) :
    ∃ stem, body = stem ++ closeMark ∧
      ∀ before after, text = before ++ closeMark ++ after →
        reach.Prefers stem.bytes before.bytes := by
  cases reach with
  | greedy => exact lastClose_last line found
  | lazy => exact firstClose_first found

theorem atStart_some {reach : Reach} {text envelope rest : Text}
    (found : atStart? reach text = some (envelope, rest)) :
    ∃ c body, envelope = openMark ++ c :: body ∧ c ≠ '\n' ∧
      close? reach (body ++ rest) = some (body, rest) := by
  unfold atStart? at found
  split at found
  · next c tail opened =>
    split at found
    · cases found
    · next plain =>
      obtain ⟨⟨body, after⟩, closed, same⟩ := Option.map_eq_some_iff.mp found
      obtain ⟨rfl, rfl⟩ := Prod.mk.inj same
      have joined := close_joins closed
      rw [joined] at closed
      exact ⟨c, body, rfl, plain, closed⟩
  · cases found

theorem firstClose_shape {text body rest : Text} (found : firstClose? text = some (body, rest)) :
    ∃ stem, body = stem ++ closeMark ∧ '\n' ∉ stem := by
  induction text generalizing body with
  | nil => cases found
  | cons c tail ih =>
    rw [firstClose?] at found
    split at found
    · obtain ⟨rfl, rfl⟩ := Prod.mk.inj (Option.some.inj found)
      exact ⟨[], rfl, List.not_mem_nil⟩
    · split at found
      · cases found
      · next plain =>
        obtain ⟨⟨inner, after⟩, deeper, same⟩ := Option.map_eq_some_iff.mp found
        obtain ⟨rfl, rfl⟩ := Prod.mk.inj same
        obtain ⟨stem, rfl, line⟩ := ih deeper
        exact ⟨c :: stem, rfl, by simp [Ne.symm plain, line]⟩

theorem lastClose_shape {text body rest : Text} (found : lastClose? text = some (body, rest)) :
    ∃ stem, body = stem ++ closeMark ∧ '\n' ∉ stem := by
  induction text generalizing body with
  | nil => cases found
  | cons c tail ih =>
    rw [lastClose?] at found
    split at found
    · cases found
    · next plain =>
      split at found
      · next inner after deeper =>
        obtain ⟨rfl, rfl⟩ := Prod.mk.inj (Option.some.inj found)
        obtain ⟨stem, rfl, line⟩ := ih deeper
        exact ⟨c :: stem, rfl, by simp [Ne.symm plain, line]⟩
      · obtain ⟨after, -, same⟩ := Option.map_eq_some_iff.mp found
        obtain ⟨rfl, rfl⟩ := Prod.mk.inj same
        exact ⟨[], rfl, List.not_mem_nil⟩

theorem atStart_shape {reach : Reach} {text envelope rest : Text}
    (found : atStart? reach text = some (envelope, rest)) :
    ∃ inner, envelope = openMark ++ inner ++ closeMark ∧ inner ≠ [] ∧ '\n' ∉ inner := by
  obtain ⟨c, body, rfl, plain, closed⟩ := atStart_some found
  have shape : ∃ stem, body = stem ++ closeMark ∧ '\n' ∉ stem := by
    cases reach with
    | greedy => exact lastClose_shape closed
    | lazy => exact firstClose_shape closed
  obtain ⟨stem, rfl, line⟩ := shape
  exact ⟨c :: stem, by simp, List.cons_ne_nil c stem, by simp [Ne.symm plain, line]⟩

theorem atStart_line {reach : Reach} {text envelope rest : Text}
    (found : atStart? reach text = some (envelope, rest)) : '\n' ∉ envelope := by
  obtain ⟨inner, rfl, -, line⟩ := atStart_shape found
  have marks : '\n' ∉ openMark ∧ '\n' ∉ closeMark := by decide
  simp only [List.mem_append, not_or]
  exact ⟨⟨marks.1, line⟩, marks.2⟩

theorem envelope_line {reach : Reach} {tail : Text} {pieces : List Piece}
    (anchored : Anchored reach tail pieces) {piece : Piece} (member : piece ∈ pieces) :
    '\n' ∉ piece.envelope := by
  obtain ⟨before, behind, rfl⟩ := List.append_of_mem member
  obtain ⟨-, found, -⟩ := anchored_append.mp anchored
  exact atStart_line found

theorem ends_at_mark {reach : Reach} {envelope rest : Text} (line : '\n' ∉ envelope ++ rest)
    (found : atStart? reach (envelope ++ rest) = some (envelope, rest))
    (start : Nat) (front : Text) :
    ∃ j ∈ Text.marks closeMark start (front ++ (envelope ++ rest)),
      start + front.bytes + 4 ≤ j ∧ j + 2 = start + front.bytes + envelope.bytes ∧
      ∀ k ∈ Text.marks closeMark start (front ++ (envelope ++ rest)),
        start + front.bytes + 4 ≤ k → reach.Prefers j k := by
  obtain ⟨c, body, rfl, -, closed⟩ := atStart_some found
  have inside : '\n' ∉ body ++ rest := fun member =>
    line (List.mem_append_right openMark (List.mem_cons_of_mem c member))
  obtain ⟨stem, rfl, preferred⟩ := close_preferred inside closed
  have positive := Char.utf8Size_pos c
  refine ⟨start + (front ++ openMark ++ c :: stem).bytes, ?_, ?_, ?_, ?_⟩
  · exact (Text.mem_marks (by decide)).mpr ⟨front ++ openMark ++ c :: stem, rest, by simp, rfl⟩
  · simp only [Text.bytes_append, Text.bytes_cons, openMark_bytes]
    omega
  · simp only [Text.bytes_append, Text.bytes_cons, openMark_bytes, closeMark_bytes]
    omega
  · intro k member late
    obtain ⟨before, after, joined, rfl⟩ := (Text.mem_marks (by decide)).mp member
    have parted : front ++ openMark ++ (c :: (stem ++ closeMark) ++ rest) =
        before ++ (closeMark ++ after) := by simpa using joined
    have later : (front ++ openMark).bytes < before.bytes := by
      rw [Text.bytes_append, openMark_bytes]
      omega
    obtain ⟨mid, some, rfl, ahead⟩ := Text.append_overlap parted later
    cases mid with
    | nil => exact absurd rfl some
    | cons d mid =>
      obtain ⟨rfl, ahead⟩ := List.cons.inj ahead
      have better := preferred mid after (by simpa using ahead)
      have shifted := Reach.prefers_add (start + (front ++ openMark ++ [c]).bytes) better
      simpa [Text.bytes_append, Text.bytes_cons, Text.bytes_nil, Nat.add_assoc] using shifted

theorem first_ends {reach : Reach} {text rest : Text} {piece : Piece} (line : '\n' ∉ text)
    (found : first? reach text = some (piece, rest)) (start : Nat) (front : Text) :
    ∃ j ∈ Text.marks closeMark start (front ++ text),
      start + front.bytes + piece.gap.bytes + 4 ≤ j ∧
      j + 2 = start + front.bytes + piece.gap.bytes + piece.envelope.bytes ∧
      ∀ k ∈ Text.marks closeMark start (front ++ text),
        start + front.bytes + piece.gap.bytes + 4 ≤ k → reach.Prefers j k := by
  have joined := (first_joins found).1
  have inside : '\n' ∉ piece.envelope ++ rest := by
    intro member
    rw [joined, List.append_assoc] at line
    exact line (List.mem_append_right piece.gap member)
  have ends := ends_at_mark inside (first_anchored found) start (front ++ piece.gap)
  have whole : front ++ piece.gap ++ (piece.envelope ++ rest) = front ++ text := by
    simp [joined]
  rwa [whole, Text.bytes_append, ← Nat.add_assoc] at ends

/-- Whatever close mark stands far enough behind an open mark on its line, an envelope starts. -/
theorem starts_of_close {front rest before after : Text} (line : '\n' ∉ rest)
    (same : front ++ openMark ++ rest = before ++ closeMark ++ after)
    (late : front.bytes + 4 ≤ before.bytes) : Starts (openMark ++ rest) := by
  have parted : front ++ openMark ++ rest = before ++ (closeMark ++ after) := by
    rw [same, List.append_assoc]
  have later : (front ++ openMark).bytes < before.bytes := by
    rw [Text.bytes_append, openMark_bytes]
    omega
  obtain ⟨mid, some, -, rfl⟩ := Text.append_overlap parted later
  refine ⟨mid, after, by simp, some, ?_⟩
  intro member
  exact line (List.mem_append_left _ member)

theorem close_too_early {reach : Reach} {start i k : Nat} {text : Text} (line : '\n' ∉ text)
    (absent : first? reach text = none) (opens : i ∈ Text.marks openMark start text)
    (closes : k ∈ Text.marks closeMark start text) : k < i + 4 := by
  apply Nat.lt_of_not_le
  intro late
  obtain ⟨front, rest, rfl, rfl⟩ := (Text.mem_marks (by decide)).mp opens
  obtain ⟨before, after, same, rfl⟩ := (Text.mem_marks (by decide)).mp closes
  have inside : '\n' ∉ rest := fun member => line (List.mem_append_right _ member)
  have starts := starts_of_close inside same (by omega)
  have held : Holds (front ++ openMark ++ rest) :=
    ⟨front, openMark ++ rest, List.append_assoc .., starts⟩
  rw [← first_isSome reach, absent] at held
  cases held

theorem starts_before_holds {c : Char} {tail rest : Text} (line : '\n' ∉ rest)
    (opened : openMark ++ rest = c :: tail) (held : Holds tail) : Starts (openMark ++ rest) := by
  obtain ⟨before, -, rfl, body, after, rfl, some, -⟩ := held
  have parted : [] ++ openMark ++ rest =
      c :: (before ++ openMark ++ body) ++ closeMark ++ after := by simpa using opened
  have width : 1 ≤ body.bytes := by
    have nonempty := List.length_pos_iff.mpr some
    have := Text.length_le_bytes body
    omega
  have late : Text.bytes [] + 4 ≤ Text.bytes (c :: (before ++ openMark ++ body)) := by
    have := Char.utf8Size_pos c
    simp only [Text.bytes_append, Text.bytes_cons, Text.bytes_nil, openMark_bytes]
    omega
  exact starts_of_close line parted late

/-- No open mark stands before the leftmost envelope of a line: an envelope would start at it. -/
theorem opens_from_first {reach : Reach} {text rest : Text} {piece : Piece} (line : '\n' ∉ text)
    (found : first? reach text = some (piece, rest)) (start : Nat) :
    Text.marks openMark start text =
      Text.marks openMark (start + piece.gap.bytes) (piece.envelope ++ rest) := by
  induction text generalizing start piece with
  | nil => cases found
  | cons c tail ih =>
    have joined := (first_joins found).1
    rw [first?] at found
    split at found
    · obtain ⟨rfl, rfl⟩ := Prod.mk.inj (Option.some.inj found)
      rw [joined]
      rfl
    · next elsewhere =>
      obtain ⟨⟨inner, after⟩, later, same⟩ := Option.map_eq_some_iff.mp found
      obtain ⟨rfl, rfl⟩ := Prod.mk.inj same
      have unmarked : ¬ openMark.isPrefixOf (c :: tail) = true := by
        rw [List.isPrefixOf_iff_prefix]
        rintro ⟨behind, opened⟩
        have plain : '\n' ∉ behind := by
          intro member
          rw [← opened] at line
          exact line (List.mem_append_right openMark member)
        -- The envelope found later has a close mark, so one would start here too.
        have held := (first_isSome reach).mp (Option.isSome_of_eq_some later)
        have starts := starts_before_holds plain opened held
        rw [opened, ← atStart_isSome reach, elsewhere] at starts
        cases starts
      have inside : '\n' ∉ tail := fun member => line (List.mem_cons_of_mem c member)
      rw [Text.marks, if_neg unmarked, ih inside later, Text.bytes_cons, Nat.add_assoc]

end Envelope
end Stencil
