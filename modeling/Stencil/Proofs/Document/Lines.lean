import Stencil.Proofs.Position
import Stencil.Proofs.Render.Filled

/-
Documents one above the other. A line feed between two texts keeps them apart for scanning and for
rendering: the lower text is treated as it is alone, only further down.
-/
namespace Stencil

open Envelope

def Occurrence.below (above : Text) (o : Occurrence) : Occurrence :=
  { o with offset := o.offset + above.bytes + 1 }

def Scan.Fault.below (above : Text) (fault : Scan.Fault) : Scan.Fault :=
  ⟨fault.position.below above, fault.cause⟩

/-- The upper text is scanned first, so its fault comes first. -/
theorem scan_lines (options : Options) (above under : Text) :
    scan options (above ++ '\n' :: under) = scan options above >>= fun found =>
      ((scan options under).map fun later => found ++ later.map (Occurrence.below above)).mapError
        (Scan.Fault.below above) := by
  have whole := congrArg Text.bytes (assemble_cut options.reach above)
  rw [assemble_bytes] at whole
  simp only [scan, cut_append_line, Scan.occurrences_append, Scan.occurrences_prepend,
    joint_offset]
  rw [Nat.add_assoc 0 above.bytes 1, Scan.occurrences_shift]
  cases upper : Scan.occurrences options.lenient 0 (cut options.reach above).1 with
  | error fault =>
    obtain ⟨offset, cause⟩ := fault
    have within : offset ≤ above.bytes := by
      have inside := Scan.occurrences_fault_within upper
      omega
    simp only [bind, Except.bind, Position.atOffset_above within]
  | ok found =>
    cases Scan.occurrences options.lenient 0 (cut options.reach under).1 with
    | error fault =>
      obtain ⟨offset, cause⟩ := fault
      have moved := Position.atOffset_below above under offset
      rw [Nat.add_assoc] at moved
      simp only [bind, Except.bind, Except.map, moved]
      rfl
    | ok later => rfl

namespace Render

theorem fillAll_below (source : Lookup) (above : Text) (pieces : List Piece)
    (occurrences : List Occurrence) :
    fillAll source pieces (occurrences.map (Occurrence.below above)) =
      fillAll source pieces occurrences := by
  rw [fillAll, List.zipWith_map_right]
  rfl

theorem clash_below (source : Lookup) (above : Text) (occurrences : List Occurrence) :
    (occurrences.map (Occurrence.below above)).findSome? (clash? source) =
      occurrences.findSome? (clash? source) := by
  rw [List.findSome?_map]
  rfl

theorem assemble_fillAll_lines {reach : Reach} {above under : Text} {found later : List Occurrence}
    (upper : (cut reach above).1.length = found.length)
    (lower : (cut reach under).1.length = later.length) (source : Lookup) :
    assemble (fillAll source (cut reach (above ++ '\n' :: under)).1
        (found ++ later.map (Occurrence.below above))) (cut reach (above ++ '\n' :: under)).2 =
      assemble (fillAll source (cut reach above).1 found) (cut reach above).2 ++
        '\n' :: assemble (fillAll source (cut reach under).1 later) (cut reach under).2 := by
  rw [cut_append_line, fillAll_append source upper, fillAll_below, assemble_append,
    assemble_fillAll_prepend source _ lower, assemble_tail _ (cut reach above).2,
    assemble_tail _ (_ ++ _)]
  simp

theorem outcome_both {first second : Option Fault} {top bottom : Text} :
    outcome (first.or second) (top ++ '\n' :: bottom) = do
      let top ← outcome first top
      let bottom ← outcome second bottom
      return top ++ '\n' :: bottom := by
  cases first with
  | some fault => rfl
  | none => cases second <;> rfl

end Render

namespace Document

theorem load_pieces {options : Options} {text : Text} {document : Document}
    (loaded : load options text = .ok document) :
    (cut options.reach text).1.length = document.occurrences.length := by
  obtain ⟨found, located, rfl⟩ := load_ok.mp loaded
  exact (Scan.occurrences_length located).symm

theorem render_lines {options : Options} {above under : Text} {first second whole : Document}
    (upper : load options above = .ok first) (lower : load options under = .ok second)
    (both : load options (above ++ '\n' :: under) = .ok whole)
    (joined : whole.occurrences = first.occurrences ++ second.occurrences.map (·.below above))
    (source : Lookup) :
    render false whole source = do
      let top ← render false first source
      let bottom ← render false second source
      return top ++ '\n' :: bottom := by
  have filled := Render.assemble_fillAll_lines (load_pieces upper) (load_pieces lower) source
  rw [Render.render_loaded both, Render.render_loaded upper, Render.render_loaded lower, joined,
    filled, List.findSome?_append, Render.clash_below, Render.outcome_both]

theorem load_lines {options : Options} {above under : Text} {first second : Document}
    (upper : load options above = .ok first) (lower : load options under = .ok second) :
    ∃ whole, load options (above ++ '\n' :: under) = .ok whole ∧
      whole.occurrences = first.occurrences ++ second.occurrences.map (·.below above) := by
  have scanned : scan options (above ++ '\n' :: under) =
      .ok (first.occurrences ++ second.occurrences.map (·.below above)) := by
    rw [scan_lines, (load_eq_ok.mp upper).1, (load_eq_ok.mp lower).1]
    rfl
  exact ⟨⟨_, _, options⟩, load_eq_ok.mpr ⟨scanned, rfl, rfl⟩, rfl⟩

theorem load_parts {options : Options} {above under : Text} {whole : Document}
    (both : load options (above ++ '\n' :: under) = .ok whole) :
    ∃ first second, load options above = .ok first ∧ load options under = .ok second ∧
      whole.occurrences = first.occurrences ++ second.occurrences.map (·.below above) := by
  obtain ⟨scanned, -, -⟩ := load_eq_ok.mp both
  rw [scan_lines] at scanned
  obtain ⟨found, upper, rest⟩ := bind_eq_ok.mp scanned
  obtain ⟨later, lower, joined⟩ := map_eq_ok.mp (mapError_eq_ok.mp rest)
  exact ⟨⟨above, found, options⟩, ⟨under, later, options⟩, load_eq_ok.mpr ⟨upper, rfl, rfl⟩,
    load_eq_ok.mpr ⟨lower, rfl, rfl⟩, joined.symm⟩

/-- A text loads above another with the outcome of the first of the two that does not load, or with
the occurrences of both, and renders as both do. -/
theorem documents_compose_by_lines (options : Options) (above under : Text) :
    (∀ first second, load options above = .ok first → load options under = .ok second →
      ∃ whole, load options (above ++ '\n' :: under) = .ok whole ∧
        whole.occurrences = first.occurrences ++ second.occurrences.map (·.below above) ∧
        ∀ source, render false whole source = do
          let top ← render false first source
          let bottom ← render false second source
          return top ++ '\n' :: bottom) ∧
    (∀ fault, load options above = .error fault →
      load options (above ++ '\n' :: under) = .error fault) ∧
    ∀ first fault, load options above = .ok first → load options under = .error fault →
      load options (above ++ '\n' :: under) = .error (fault.below above) := by
  refine ⟨fun first second upper lower => ?_, fun fault upper => ?_,
    fun first fault upper lower => ?_⟩
  · obtain ⟨whole, both, joined⟩ := load_lines upper lower
    exact ⟨whole, both, joined, render_lines upper lower both joined⟩
  · rw [load_eq_error, scan_lines, load_eq_error.mp upper]
    rfl
  · rw [load_eq_error, scan_lines, (load_eq_ok.mp upper).1, load_eq_error.mp lower]
    rfl

theorem fault_below_a_carriage_return :
    let above := "é\n$\x7b\x7bname: a, type: NULL, value: null\x7d\x7d".toList
    let under := "\r $\x7b\x7bname: b, value: \r7\x7d\x7d".toList
    let broken := "\r $\x7b\x7bname\x7d\x7d".toList
    let first : Document := ⟨above, [⟨⟨['a'], .null, some .null, none⟩, 3, 37⟩], {}⟩
    let second : Document := ⟨under, [⟨⟨['b'], .unknown, some (.raw ['7']), none⟩, 2, 23⟩], {}⟩
    load {} above = .ok first ∧ load {} under = .ok second ∧
      (∃ whole, load {} (above ++ '\n' :: under) = .ok whole ∧
        whole.occurrences.map (·.offset) = [3, 43] ∧
        render false whole ⟨fun _ => none, fun _ => false⟩ = .ok "é\nnull\n\r 7".toList) ∧
      load {} (broken ++ '\n' :: above) = .error ⟨⟨1, 2, 2⟩, .malformedProperty "name".toList⟩ ∧
      load {} (above ++ '\n' :: broken) = .error ⟨⟨3, 2, 43⟩, .malformedProperty "name".toList⟩ := by
  intro above under broken first second
  have upper : load {} above = .ok first := by decide +kernel
  have lower : load {} under = .ok second := by decide +kernel
  have failed : load {} broken = .error ⟨⟨1, 2, 2⟩, .malformedProperty "name".toList⟩ := by
    decide +kernel
  obtain ⟨whole, both, joined, rendered⟩ :=
    (documents_compose_by_lines {} above under).1 first second upper lower
  refine ⟨upper, lower, ⟨whole, both, ?_, ?_⟩, ?_, ?_⟩
  · rw [joined]
    decide +kernel
  · rw [rendered]
    decide +kernel
  · exact (documents_compose_by_lines {} broken above).2.1 _ failed
  · exact (documents_compose_by_lines {} above broken).2.2 first _ upper failed

end Document
end Stencil
