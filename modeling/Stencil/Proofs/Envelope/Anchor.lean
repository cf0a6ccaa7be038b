import Stencil.Envelope

/-
A cut text keeps its envelopes in place: each is what a search at its first character finds, with
all the later pieces after it, whatever text is put before it.
-/
namespace Stencil.Envelope

def Anchored (reach : Reach) (tail : Text) : List Piece → Prop
  | [] => True
  | piece :: pieces =>
    atStart? reach (piece.envelope ++ assemble pieces tail) =
      some (piece.envelope, assemble pieces tail) ∧ Anchored reach tail pieces

theorem assemble_cons (piece : Piece) (pieces : List Piece) (tail : Text) :
    assemble (piece :: pieces) tail = piece.gap ++ piece.envelope ++ assemble pieces tail := by
  simp [assemble]

theorem assemble_append (pieces others : List Piece) (tail : Text) :
    assemble (pieces ++ others) tail = assemble pieces (assemble others tail) := by
  simp [assemble]

theorem assemble_tail (pieces : List Piece) (tail : Text) :
    assemble pieces tail = assemble pieces [] ++ tail := by
  simp [assemble]

theorem bytes_behind (front : Text) (piece : Piece) :
    (front ++ piece.gap ++ piece.envelope).bytes =
      front.bytes + piece.gap.bytes + piece.envelope.bytes := by
  rw [Text.bytes_append, Text.bytes_append]

theorem first_anchored {reach : Reach} {text rest : Text} {piece : Piece}
    (found : first? reach text = some (piece, rest)) :
    atStart? reach (piece.envelope ++ rest) = some (piece.envelope, rest) := by
  induction text generalizing piece with
  | nil => simp [first?] at found
  | cons c tail ih =>
    rw [first?] at found
    split at found
    · next envelope after here =>
      obtain ⟨rfl, rfl⟩ := Prod.mk.inj (Option.some.inj found)
      have joined := (atStart_joins here).1
      rwa [joined] at here
    · obtain ⟨⟨inner, after⟩, later, same⟩ := Option.map_eq_some_iff.mp found
      obtain ⟨rfl, rfl⟩ := Prod.mk.inj same
      have deeper := ih later
      exact deeper

theorem cut_anchored (reach : Reach) (text : Text) :
    Anchored reach (cut reach text).2 (cut reach text).1 := by
  fun_induction cut reach text with
  | case1 => trivial
  | case2 text piece rest found _ pieces tail step ih =>
    have whole := assemble_cut reach rest
    rw [step] at ih whole
    refine ⟨?_, ih⟩
    rw [whole]
    exact first_anchored found

theorem anchored_append {reach : Reach} {tail : Text} {pieces others : List Piece} :
    Anchored reach tail (pieces ++ others) ↔
      Anchored reach (assemble others tail) pieces ∧ Anchored reach tail others := by
  induction pieces with
  | nil => simp [Anchored]
  | cons piece pieces ih =>
    simp only [List.cons_append, Anchored, assemble_append, ih, and_assoc]

/-- An envelope starts at a byte offset of a text and is so many bytes long. -/
def StandsAt (reach : Reach) (text : Text) (offset length : Nat) : Prop :=
  ∃ front envelope after : Text, text = front ++ (envelope ++ after) ∧ front.bytes = offset ∧
    envelope.bytes = length ∧ atStart? reach (envelope ++ after) = some (envelope, after)

theorem piece_stands {reach : Reach} {text : Text} {before behind : List Piece} {piece : Piece}
    (parted : (cut reach text).1 = before ++ piece :: behind) :
    StandsAt reach text ((assemble before []).bytes + piece.gap.bytes) piece.envelope.bytes := by
  have anchored := cut_anchored reach text
  have whole := assemble_cut reach text
  rw [parted] at anchored whole
  obtain ⟨-, found, -⟩ := anchored_append.mp anchored
  refine ⟨assemble before [] ++ piece.gap, piece.envelope, _, ?_, Text.bytes_append .., rfl, found⟩
  apply whole.symm.trans
  rw [assemble_append, assemble_cons, assemble_tail before]
  simp

end Stencil.Envelope
