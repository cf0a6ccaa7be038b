import Stencil.Proofs.Envelope.Ends
import Stencil.Proofs.Envelope.Recognition

/-
An envelope of a text is found again by a search that starts where it stands, whether that search
sees the rest of the text or only the envelope, and with the same length.
-/
namespace Stencil.Envelope

/-- The length in bytes of the leftmost envelope, when that is at the start of the text. -/
def lengthAtStart? (reach : Reach) (text : Text) : Option Nat :=
  ((first? reach text).filter fun found => found.1.gap.bytes = 0).map fun found =>
    found.1.envelope.bytes

theorem lengthAtStart_eq (reach : Reach) (text : Text) :
    lengthAtStart? reach text = (atStart? reach text).map fun found => found.1.bytes := by
  cases here : atStart? reach text with
  | some found =>
    rw [lengthAtStart?, first_at_start here]
    rfl
  | none =>
    cases text with
    | nil => rfl
    | cons c rest =>
      rw [lengthAtStart?, first?, here]
      cases first? reach rest with
      | none => rfl
      | some found =>
        -- The gap has at least the character that is passed over.
        have positive := Char.utf8Size_pos c
        have wide : Text.bytes (c :: found.1.gap) ≠ 0 := by
          rw [Text.bytes_cons]
          omega
        simp [wide]

theorem firstClose_alone {body rest : Text}
    (found : firstClose? (body ++ rest) = some (body, rest)) :
    firstClose? body = some (body, []) := by
  induction body with
  | nil =>
    obtain ⟨stem, empty, -⟩ := firstClose_shape found
    simp [closeMark] at empty
  | cons c body ih =>
    rw [List.cons_append, firstClose?] at found
    split at found
    · obtain ⟨mark, -⟩ := Prod.mk.inj (Option.some.inj found)
      rw [← mark]
      decide
    · next elsewhere =>
      split at found
      · cases found
      · next plain =>
        obtain ⟨⟨inner, after⟩, deeper, same⟩ := Option.map_eq_some_iff.mp found
        obtain ⟨tail, rfl⟩ := Prod.mk.inj same
        obtain rfl := (List.cons.inj tail).2
        have unmarked : Text.after? closeMark (c :: inner) = none := by
          rw [Option.eq_none_iff_forall_ne_some]
          intro behind marked
          have joined : c :: (inner ++ after) = closeMark ++ (behind ++ after) := by
            rw [← List.cons_append, Text.after_eq_some.mp marked, List.append_assoc]
          rw [Text.after_eq_some.mpr joined] at elsewhere
          cases elsewhere
        rw [firstClose?, unmarked]
        simp [plain, ih deeper]

theorem close_alone {reach : Reach} {body rest : Text}
    (found : close? reach (body ++ rest) = some (body, rest)) :
    close? reach body = some (body, []) := by
  cases reach with
  | greedy =>
    obtain ⟨stem, rfl, line⟩ := lastClose_shape found
    have closed := @lastClose_of_stem stem [] line (by decide) (by decide)
    rwa [List.append_nil] at closed
  | lazy => exact firstClose_alone found

theorem atStart_alone {reach : Reach} {text envelope rest : Text}
    (found : atStart? reach text = some (envelope, rest)) :
    atStart? reach envelope = some (envelope, []) := by
  obtain ⟨c, body, rfl, plain, closed⟩ := atStart_some found
  rw [atStart_open reach plain, close_alone closed]
  rfl

theorem lengthAtStart_of_found {reach : Reach} {text envelope rest : Text}
    (found : atStart? reach text = some (envelope, rest)) :
    lengthAtStart? reach text = some envelope.bytes := by
  rw [lengthAtStart_eq, found]
  rfl

theorem stands_found_again {reach : Reach} {text : Text} {offset length : Nat}
    (stands : StandsAt reach text offset length) :
    ∃ rest envelope : Text, text.slice? offset text.bytes = some rest ∧
      text.slice? offset (offset + length) = some envelope ∧
      lengthAtStart? reach rest = some length ∧ lengthAtStart? reach envelope = some length := by
  obtain ⟨front, envelope, after, rfl, rfl, rfl, found⟩ := stands
  have own := Text.slice_middle front envelope after
  rw [List.append_assoc] at own
  exact ⟨envelope ++ after, envelope, Text.slice_end _ _, own, lengthAtStart_of_found found,
    lengthAtStart_of_found (atStart_alone found)⟩

theorem span_found_again {reach : Reach} {text : Text} {i j : Nat}
    (member : (i, j) ∈ spans 0 (cut reach text).1) :
    ∃ rest envelope : Text, text.slice? i text.bytes = some rest ∧
      text.slice? i j = some envelope ∧ lengthAtStart? reach rest = some (j - i) ∧
      lengthAtStart? reach envelope = some (j - i) := by
  obtain ⟨before, piece, behind, parted, first, last⟩ := spans_piece member
  have start : i = (assemble before []).bytes + piece.gap.bytes := by simpa using first
  have stop : j = i + piece.envelope.bytes := last
  have length : j - i = piece.envelope.bytes := by omega
  rw [length, stop, start]
  exact stands_found_again (piece_stands parted)

end Stencil.Envelope
