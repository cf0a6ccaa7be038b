import Stencil.Proofs.Envelope.Anchor
import Stencil.Proofs.Text.Parts

/-
Envelopes keep to their lines. A line feed parts a text into two that are searched independently:
the envelopes of the whole are those of the text before it and then those of the text after it,
only further on.
-/
namespace Stencil

theorem Text.after_append_line {mark : Text} (plain : '\n' ∉ mark) (a b : Text) :
    after? mark (a ++ '\n' :: b) = (after? mark a).map (· ++ '\n' :: b) := by
  fun_induction after? mark a with
  | case1 text => rfl
  | case2 m mark =>
    simp only [List.mem_cons, not_or] at plain
    simp [after?, Ne.symm plain.1]
  | case3 m mark text ih =>
    simp only [List.mem_cons, not_or] at plain
    rw [List.cons_append, after?, if_pos rfl, ih plain.2]
  | case4 m mark c text other => simp [after?, other]

namespace Envelope

theorem afterClose_append_line (a b : Text) :
    Text.after? closeMark (a ++ '\n' :: b) =
      (Text.after? closeMark a).map (· ++ '\n' :: b) :=
  Text.after_append_line (by decide) a b

theorem firstClose_append_line (a b : Text) :
    firstClose? (a ++ '\n' :: b) =
      (firstClose? a).map fun (body, rest) => (body, rest ++ '\n' :: b) := by
  induction a with
  | nil => simp [firstClose?, Text.after?, closeMark]
  | cons c rest ih =>
    rw [List.cons_append, firstClose?, firstClose?, ← List.cons_append, afterClose_append_line]
    cases Text.after? closeMark (c :: rest) with
    | some after => rfl
    | none =>
      by_cases feed : c = '\n'
      · simp [feed]
      · simp [feed, ih, Function.comp_def]

theorem lastClose_append_line (a b : Text) :
    lastClose? (a ++ '\n' :: b) =
      (lastClose? a).map fun (body, rest) => (body, rest ++ '\n' :: b) := by
  induction a with
  | nil => simp [lastClose?]
  | cons c rest ih =>
    rw [List.cons_append, lastClose?, lastClose?, ← List.cons_append, afterClose_append_line, ih]
    by_cases feed : c = '\n'
    · simp [feed]
    · cases lastClose? rest with
      | some found => simp [feed]
      | none => simp [feed, Function.comp_def]

theorem close_append_line (reach : Reach) (a b : Text) :
    close? reach (a ++ '\n' :: b) =
      (close? reach a).map fun (body, rest) => (body, rest ++ '\n' :: b) := by
  cases reach with
  | greedy => exact lastClose_append_line a b
  | lazy => exact firstClose_append_line a b

theorem atStart_append_line (reach : Reach) (a b : Text) :
    atStart? reach (a ++ '\n' :: b) =
      (atStart? reach a).map fun (envelope, rest) => (envelope, rest ++ '\n' :: b) := by
  rw [atStart?, atStart?, Text.after_append_line (by decide)]
  cases Text.after? openMark a with
  | none => rfl
  | some rest =>
    cases rest with
    | nil => simp
    | cons c tail =>
      by_cases feed : c = '\n'
      · simp [feed]
      · simp [feed, close_append_line, Function.comp_def]

theorem first_append_line (reach : Reach) (a b : Text) :
    first? reach (a ++ '\n' :: b) =
      match first? reach a with
      | some (piece, rest) => some (piece, rest ++ '\n' :: b)
      | none => (first? reach b).map fun (piece, rest) =>
          (⟨a ++ '\n' :: piece.gap, piece.envelope⟩, rest) := by
  induction a with
  | nil => simp [first?, atStart?, Text.after?, openMark]
  | cons c rest ih =>
    have here := atStart_append_line reach (c :: rest) b
    rw [List.cons_append] at here ⊢
    rw [first?, first?, here]
    cases atStart? reach (c :: rest) with
    | some found => rfl
    | none =>
      rw [Option.map_none, ih]
      cases first? reach rest with
      | some found => rfl
      | none => simp [Function.comp_def]

theorem cut_of_none {reach : Reach} {text : Text} (absent : first? reach text = none) :
    cut reach text = ([], text) := by
  rw [cut]
  split
  · rfl
  · next piece rest found =>
    rw [absent] at found
    cases found

theorem cut_of_some {reach : Reach} {text rest : Text} {piece : Piece}
    (found : first? reach text = some (piece, rest)) :
    cut reach text = (piece :: (cut reach rest).1, (cut reach rest).2) := by
  rw [cut]
  split
  · next absent =>
    rw [found] at absent
    cases absent
  · next other after same =>
    rw [found] at same
    obtain ⟨rfl, rfl⟩ := Prod.mk.inj (Option.some.inj same)
    rfl

/-- Puts text in front of pieces: into the first gap, or into the tail if there is none. -/
def prepend (front : Text) : List Piece × Text → List Piece × Text
  | ([], tail) => ([], front ++ tail)
  | (piece :: pieces, tail) => (⟨front ++ piece.gap, piece.envelope⟩ :: pieces, tail)

theorem cut_append_line (reach : Reach) (a b : Text) :
    cut reach (a ++ '\n' :: b) =
      ((cut reach a).1 ++ (prepend ((cut reach a).2 ++ ['\n']) (cut reach b)).1,
        (prepend ((cut reach a).2 ++ ['\n']) (cut reach b)).2) := by
  fun_induction cut reach a with
  | case1 a absent =>
    have joint := first_append_line reach a b
    rw [absent] at joint
    cases found : first? reach b with
    | none =>
      rw [found] at joint
      simp [cut_of_none found, cut_of_none joint, prepend]
    | some hit =>
      obtain ⟨piece, rest⟩ := hit
      rw [found] at joint
      simp [cut_of_some found, cut_of_some joint, prepend]
  | case2 a piece rest found _ pieces tail step ih =>
    have joint := first_append_line reach a b
    rw [found] at joint
    rw [step] at ih
    rw [cut_of_some joint, ih]
    rfl

/-- The byte offsets of the envelopes of pieces that start at a byte offset, first and past the
end. -/
def spans (start : Nat) : List Piece → List (Nat × Nat)
  | [] => []
  | piece :: pieces =>
    let first := start + piece.gap.bytes
    (first, first + piece.envelope.bytes) :: spans (first + piece.envelope.bytes) pieces

theorem offset_behind_cons (start : Nat) (piece : Piece) (pieces : List Piece) :
    start + (assemble (piece :: pieces) []).bytes =
      start + piece.gap.bytes + piece.envelope.bytes + (assemble pieces []).bytes := by
  simp only [assemble_cons, Text.bytes_append]
  omega

theorem spans_append (start : Nat) (pieces others : List Piece) :
    spans start (pieces ++ others) =
      spans start pieces ++ spans (start + (assemble pieces []).bytes) others := by
  induction pieces generalizing start with
  | nil => rfl
  | cons piece pieces ih =>
    rw [List.cons_append, spans, spans, ih, offset_behind_cons]
    rfl

theorem spans_prepend (start : Nat) (front : Text) (cutting : List Piece × Text) :
    spans start (prepend front cutting).1 = spans (start + front.bytes) cutting.1 := by
  obtain ⟨pieces, tail⟩ := cutting
  cases pieces with
  | nil => rfl
  | cons piece pieces => simp only [prepend, spans, Text.bytes_append, Nat.add_assoc]

theorem assemble_bytes (pieces : List Piece) (tail : Text) :
    (assemble pieces tail).bytes = (assemble pieces []).bytes + tail.bytes := by
  simp [assemble, Text.bytes_append]

theorem joint_offset (reach : Reach) (a : Text) (start : Nat) :
    start + (assemble (cut reach a).1 []).bytes + ((cut reach a).2 ++ ['\n']).bytes =
      start + a.bytes + 1 := by
  have whole := congrArg Text.bytes (assemble_cut reach a)
  rw [assemble_bytes] at whole
  have feed : Text.bytes ['\n'] = 1 := by decide
  rw [Text.bytes_append, feed]
  omega

theorem spans_piece {start : Nat} {pieces : List Piece} {span : Nat × Nat}
    (member : span ∈ spans start pieces) :
    ∃ before piece behind, pieces = before ++ piece :: behind ∧
      span.1 = start + (assemble before []).bytes + piece.gap.bytes ∧
      span.2 = span.1 + piece.envelope.bytes := by
  induction pieces generalizing start with
  | nil => cases member
  | cons piece pieces ih =>
    rcases List.mem_cons.mp member with rfl | later
    · exact ⟨[], piece, pieces, rfl, rfl, rfl⟩
    · obtain ⟨before, found, behind, rfl, first, last⟩ := ih later
      exact ⟨piece :: before, found, behind, rfl, by rw [first, offset_behind_cons], last⟩

theorem slice_piece (before : List Piece) (piece : Piece) (behind : List Piece) (tail : Text) :
    (assemble (before ++ piece :: behind) tail).slice?
        ((assemble before []).bytes + piece.gap.bytes)
        ((assemble before []).bytes + piece.gap.bytes + piece.envelope.bytes) =
      some piece.envelope := by
  have slice := Text.slice_middle (assemble before [] ++ piece.gap) piece.envelope
    (assemble behind tail)
  rw [Text.bytes_append] at slice
  rw [assemble_append, assemble_cons, assemble_tail before (_ ++ _)]
  simpa using slice

theorem spans_within (front tail : Text) {pieces : List Piece} {span : Nat × Nat}
    (member : span ∈ spans front.bytes pieces) :
    ∃ envelope, (front ++ assemble pieces tail).slice? span.1 span.2 = some envelope ∧
      front.bytes ≤ span.1 ∧ span.2 ≤ (front ++ assemble pieces tail).bytes := by
  induction pieces generalizing front with
  | nil => cases member
  | cons piece pieces ih =>
    rw [assemble_cons]
    rcases List.mem_cons.mp member with rfl | later
    · have own := Text.slice_middle (front ++ piece.gap) piece.envelope (assemble pieces tail)
      refine ⟨piece.envelope, ?_, ?_, ?_⟩
      · simpa [Text.bytes_append] using own
      · omega
      · simp only [Text.bytes_append]
        omega
    · rw [← bytes_behind] at later
      obtain ⟨envelope, slice, first, last⟩ := ih (front ++ piece.gap ++ piece.envelope) later
      refine ⟨envelope, ?_, ?_, ?_⟩
      · simpa using slice
      · rw [bytes_behind] at first
        omega
      · simpa using last

theorem spans_disjoint (front : Text) (pieces : List Piece) :
    (spans front.bytes pieces).Pairwise fun a b => a.2 ≤ b.1 := by
  induction pieces generalizing front with
  | nil => exact List.Pairwise.nil
  | cons piece pieces ih =>
    rw [spans, ← bytes_behind]
    refine List.Pairwise.cons (fun span later => ?_) (ih _)
    obtain ⟨-, -, first, -⟩ := spans_within _ [] later
    exact first

theorem spans_length (start : Nat) (pieces : List Piece) :
    (spans start pieces).length = pieces.length := by
  induction pieces generalizing start with
  | nil => rfl
  | cons piece pieces ih => simp [spans, ih]

theorem pieces_unique {start : Nat} {pieces others : List Piece} {tail rest : Text}
    (same : assemble pieces tail = assemble others rest)
    (placed : spans start pieces = spans start others) : pieces = others := by
  induction pieces generalizing start others with
  | nil =>
    cases others with
    | nil => rfl
    | cons other others => cases placed
  | cons piece pieces ih =>
    cases others with
    | nil => cases placed
    | cons other others =>
      rw [assemble_cons, assemble_cons, List.append_assoc, List.append_assoc] at same
      obtain ⟨here, later⟩ := List.cons.inj placed
      obtain ⟨first, last⟩ := Prod.mk.inj here
      obtain ⟨gap, ahead⟩ := Text.append_inj same (by omega)
      obtain ⟨envelope, behind⟩ := Text.append_inj ahead (by omega)
      rw [last] at later
      rw [ih behind later]
      cases piece
      cases other
      simp_all

theorem spans_append_line (reach : Reach) (start : Nat) (a b : Text) :
    spans start (cut reach (a ++ '\n' :: b)).1 =
      spans start (cut reach a).1 ++ spans (start + a.bytes + 1) (cut reach b).1 := by
  rw [cut_append_line, spans_append, spans_prepend, joint_offset]

end Envelope
end Stencil
