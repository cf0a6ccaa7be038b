import Stencil.Proofs.Declaration.RoundTrip
import Stencil.Proofs.Envelope.Anchor
import Stencil.Proofs.Envelope.Recognition
import Stencil.Proofs.Scan.Occurrences

/-
What was written into a text is what a scan of it finds. With the greedy reach a line can hold one
declaration, with the lazy reach any number stand between gaps of any kind. The text around them has
no open mark; what may follow a declaration, or stand in one, differs by reach.
-/
namespace Stencil

open Envelope

namespace Declaration

theorem greedy_write {d : Declaration} {after : Text} (readable : d.Readable)
    (unclosed : ¬ closeMark <:+: after) (apart : after.head? ≠ some '}') :
    atStart? .greedy (d.write ++ after) = some (d.write, after) :=
  greedy_marked d.body_ne_nil (body_line readable) unclosed apart

theorem lazy_write {d : Declaration} (readable : d.Readable) (unclosed : ¬ closeMark <:+: d.body)
    (apart : d.body.getLast? ≠ some '}') (rest : Text) :
    atStart? .lazy (d.write ++ rest) = some (d.write, rest) :=
  lazy_marked d.body_ne_nil (body_line readable) unclosed apart rest

end Declaration

/-- A line without open mark, or one with a declaration written between two texts. -/
inductive Line where
  | plain (text : Text)
  | slot (before : Text) (declaration : Declaration) (after : Text)

namespace Line

def text : Line → Text
  | .plain text => text
  | .slot before d after => before ++ d.write ++ after

def Clear : Line → Prop
  | .plain text => ¬ openMark <:+: text ∧ '\n' ∉ text
  | .slot before d after =>
    d.WellFormed ∧ (¬ openMark <:+: before ∧ '\n' ∉ before) ∧
      ¬ closeMark <:+: after ∧ after.head? ≠ some '}' ∧ '\n' ∉ after

instance : (line : Line) → Decidable line.Clear
  | .plain _ => inferInstanceAs (Decidable (_ ∧ _))
  | .slot _ _ _ => inferInstanceAs (Decidable (_ ∧ _))

/-- The declarations of lines that follow a text, each where all that is before it ends. -/
def placed (front : Text) : List Line → List Occurrence
  | [] => []
  | .plain text :: lines => placed (front ++ text ++ ['\n']) lines
  | .slot before d after :: lines =>
    ⟨d, (front ++ before).bytes, d.write.bytes⟩ ::
      placed (front ++ (before ++ d.write ++ after) ++ ['\n']) lines

theorem placed_cons (front : Text) (line : Line) (lines : List Line) :
    placed front (line :: lines) =
      placed front [line] ++ placed (front ++ line.text ++ ['\n']) lines := by
  cases line <;> rfl

theorem found {line : Line} (clear : line.Clear) (lenient : Bool) (front : Text) :
    Scan.occurrences lenient front.bytes (cut .greedy line.text).1 =
      .ok (placed front [line]) := by
  cases line with
  | plain text =>
    have nothing : cut .greedy (plain text).text = ([], text) := cut_unopened clear.1
    rw [nothing]
    rfl
  | slot before d after =>
    obtain ⟨wellFormed, ⟨unopened, -⟩, unclosed, apart, -⟩ := clear
    have here := first_after_gap unopened (Declaration.greedy_write wellFormed.toReadable unclosed apart)
    rw [text, List.append_assoc, cut_of_some here, cut_unclosed unclosed]
    refine Scan.occurrences_cons_ok.mpr ⟨d, [], Declaration.read_write wellFormed lenient, rfl, ?_⟩
    rw [placed, Text.bytes_append]
    rfl

theorem join_found {lines : List Line} (clear : ∀ line ∈ lines, line.Clear) (lenient : Bool)
    (front : Text) :
    Scan.occurrences lenient front.bytes
        (cut .greedy (Text.join ['\n'] (lines.map text))).1 = .ok (placed front lines) := by
  induction lines generalizing front with
  | nil =>
    rw [cut_unopened (by decide)]
    rfl
  | cons line lines ih =>
    obtain ⟨here, others⟩ := List.forall_mem_cons.mp clear
    have first := found here lenient front
    have rest := ih others (front ++ line.text ++ ['\n'])
    cases lines with
    | nil => exact first
    | cons next later =>
      have feed : Text.bytes ['\n'] = 1 := by decide
      rw [Text.bytes_append, Text.bytes_append, feed] at rest
      rw [placed_cons]
      rw [List.map_cons, List.map_cons, Text.join, List.append_assoc, List.singleton_append]
      · exact Scan.occurrences_append_line first rest
      · exact List.cons_ne_nil _ _

end Line

structure Slot where
  gap : Text
  declaration : Declaration

namespace Slot

def piece (slot : Slot) : Piece := ⟨slot.gap, slot.declaration.write⟩

def Clear (slot : Slot) : Prop :=
  slot.declaration.WellFormed ∧ ¬ openMark <:+: slot.gap ∧
    ¬ closeMark <:+: slot.declaration.body ∧ slot.declaration.body.getLast? ≠ some '}'

instance (slot : Slot) : Decidable slot.Clear :=
  inferInstanceAs (Decidable (_ ∧ _))

def placed (front : Text) : List Slot → List Occurrence
  | [] => []
  | slot :: slots =>
    ⟨slot.declaration, (front ++ slot.gap).bytes, slot.declaration.write.bytes⟩ ::
      placed (front ++ slot.gap ++ slot.declaration.write) slots

theorem cut_assembled {slots : List Slot} {tail : Text} (clear : ∀ slot ∈ slots, slot.Clear)
    (unopened : ¬ openMark <:+: tail) :
    cut .lazy (assemble (slots.map piece) tail) = (slots.map piece, tail) := by
  induction slots with
  | nil => exact cut_unopened unopened
  | cons slot slots ih =>
    obtain ⟨⟨wellFormed, gap, unclosed, apart⟩, others⟩ := List.forall_mem_cons.mp clear
    have rest := ih others
    have here := first_after_gap gap (Declaration.lazy_write wellFormed.toReadable unclosed apart
      (assemble (slots.map piece) tail))
    rw [List.map_cons, assemble_cons, List.append_assoc]
    rw [piece, cut_of_some here, rest]

theorem read_pieces {slots : List Slot} (clear : ∀ slot ∈ slots, slot.Clear) (lenient : Bool)
    (front : Text) :
    Scan.occurrences lenient front.bytes (slots.map piece) = .ok (placed front slots) := by
  induction slots generalizing front with
  | nil => rfl
  | cons slot slots ih =>
    obtain ⟨⟨wellFormed, -⟩, others⟩ := List.forall_mem_cons.mp clear
    have rest := ih others (front ++ slot.gap ++ slot.declaration.write)
    rw [Text.bytes_append, Text.bytes_append] at rest
    refine Scan.occurrences_cons_ok.mpr
      ⟨slot.declaration, _, Declaration.read_write wellFormed lenient, rest, ?_⟩
    rw [placed, Text.bytes_append]
    rfl

end Slot

theorem scan_finds_written (lenient : Bool) :
    (∀ lines : List Line, (∀ line ∈ lines, line.Clear) →
      scan ⟨.greedy, lenient⟩ (Text.join ['\n'] (lines.map Line.text)) =
        .ok (Line.placed [] lines)) ∧
    ∀ (slots : List Slot) (tail : Text), (∀ slot ∈ slots, slot.Clear) →
      ¬ openMark <:+: tail →
        scan ⟨.lazy, lenient⟩ (assemble (slots.map Slot.piece) tail) =
          .ok (Slot.placed [] slots) := by
  constructor
  · intro lines clear
    exact scan_ok.mpr (Line.join_found clear lenient [])
  · intro slots tail clear unopened
    rw [scan_ok, Slot.cut_assembled clear unopened]
    exact Slot.read_pieces clear lenient []

theorem braces_beside_and_inside :
    let quoted : Declaration := ⟨['a'], .string, some (.string "é\x7d\x7d".toList), none⟩
    let flag : Declaration := ⟨['b'], .boolean, none, some (.boolean true)⟩
    let lines : List Line :=
      [.slot ['$'] quoted " \x7d $\x7b\x7b".toList, .plain "\x7d\x7d".toList, .slot [] flag []]
    let slots : List Slot := [⟨"\x7d\x7d\n$\x7b".toList, flag⟩, ⟨[], flag⟩]
    (scan ⟨.greedy, true⟩ (Text.join ['\n'] (lines.map Line.text)) =
        .ok (Line.placed [] lines) ∧
      Line.placed [] lines = [⟨quoted, 1, 41⟩, ⟨flag, 52, 47⟩]) ∧
    scan ⟨.lazy, true⟩ (assemble (slots.map Slot.piece) closeMark) = .ok (Slot.placed [] slots) ∧
      Slot.placed [] slots = [⟨flag, 5, 47⟩, ⟨flag, 52, 47⟩] := by
  intro quoted flag lines slots
  obtain ⟨greedy, lazy⟩ := scan_finds_written true
  have clearLines : ∀ line ∈ lines, line.Clear := by decide
  have clearSlots : ∀ slot ∈ slots, slot.Clear := by decide
  refine ⟨⟨greedy lines clearLines, by decide⟩, ?_, by decide⟩
  exact lazy slots closeMark clearSlots (by decide)

end Stencil
