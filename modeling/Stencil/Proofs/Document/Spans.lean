import Stencil.Proofs.Document.Loaded
import Stencil.Proofs.Position.Order
import Stencil.Proofs.Session

/-
The spans of the occurrences of a loaded document. Each covers exactly the characters of its
occurrence, on one line, and they are printed in the order of the text as far as carriage returns
allow.
-/
namespace Stencil.Document

open Envelope Position

variable {options : Options} {text : Text} {document : Document} {o : Occurrence}

theorem occurrence_marked (loaded : load options text = .ok document)
    (member : o ∈ document.occurrences) :
    ∃ before inner after : Text, text = before ++ (openMark ++ inner ++ closeMark) ++ after ∧
      before.bytes = o.offset ∧ Text.bytes (openMark ++ inner ++ closeMark) = o.length ∧
      '\n' ∉ openMark ++ inner ++ closeMark := by
  obtain ⟨before, envelope, after, whole, offset, length, found⟩ :=
    occurrence_stands (load_consistent loaded) member
  obtain ⟨-, same, -⟩ := load_eq_ok.mp loaded
  have line := atStart_line found
  obtain ⟨inner, rfl, -, -⟩ := atStart_shape found
  refine ⟨before, inner, after, ?_, offset, length, line⟩
  rw [← same, whole, ← List.append_assoc before]

theorem occurrence_boundaries (loaded : load options text = .ok document)
    (member : o ∈ document.occurrences) : text.Boundary o.offset ∧ text.Boundary o.stop := by
  obtain ⟨before, inner, after, rfl, offset, length, -⟩ := occurrence_marked loaded member
  refine ⟨⟨before, _, List.append_assoc before _ after, offset⟩, _, after, rfl, ?_⟩
  rw [Text.bytes_append, offset, length, Occurrence.stop]

theorem spanOf_ends (loaded : load options text = .ok document)
    (member : o ∈ document.occurrences) :
    document.spanOf o = ⟨atOffset text o.offset, atOffset text o.stop⟩ := by
  obtain ⟨first, last⟩ := occurrence_boundaries loaded member
  obtain ⟨-, rfl, -⟩ := load_eq_ok.mp loaded
  exact Span.covering_boundaries first last

theorem spanOf_line (loaded : load options text = .ok document)
    (member : o ∈ document.occurrences) :
    (document.spanOf o).start.line = (document.spanOf o).stop.line := by
  obtain ⟨before, inner, after, whole, offset, length, line⟩ := occurrence_marked loaded member
  obtain ⟨-, same, -⟩ := load_eq_ok.mp loaded
  have feeds := List.count_eq_zero.mpr line
  rw [spanOf, same, whole, ← offset, ← length, Span.covering_middle, behind, behind,
    List.count_append, feeds, Nat.add_zero]

theorem atOffset_boundary {k : Nat} (boundary : text.Boundary k) :
    (atOffset text k).offset = k := by
  obtain ⟨before, after, rfl, rfl⟩ := boundary
  rw [atOffset_joint, behind]

theorem spans_cover_occurrences (options : Options) (text : Text) :
    (∀ offset length,
      (text.Boundary offset ∧ text.Boundary (offset + length) →
        Span.covering text offset length =
            ⟨atOffset text offset, atOffset text (offset + length)⟩ ∧
          (Span.covering text offset length).length = length) ∧
      (¬ (text.Boundary offset ∧ text.Boundary (offset + length)) →
        Span.covering text offset length = ⟨atOffset text offset, atOffset text offset⟩ ∧
          (Span.covering text offset length).isEmpty)) ∧
    ∀ document, load options text = .ok document → ∀ o ∈ document.occurrences,
      (text.Boundary o.offset ∧ text.Boundary o.stop) ∧
        (document.spanOf o).start.offset = o.offset ∧ (document.spanOf o).stop.offset = o.stop ∧
        (document.spanOf o).length = o.length ∧
        (document.spanOf o).start.line = (document.spanOf o).stop.line := by
  refine ⟨fun offset length => ⟨?_, ?_⟩, fun document loaded o member => ?_⟩
  · rintro ⟨first, last⟩
    exact ⟨Span.covering_boundaries first last, Span.covering_length first last⟩
  · intro apart
    have point := Span.covering_apart apart
    refine ⟨point, ?_⟩
    rw [point, Span.isEmpty, Span.length, Nat.sub_self]
    rfl
  · obtain ⟨first, last⟩ := occurrence_boundaries loaded member
    have ends := spanOf_ends loaded member
    refine ⟨⟨first, last⟩, ?_, ?_, ?_, spanOf_line loaded member⟩
    · rw [ends, atOffset_boundary first]
    · rw [ends, atOffset_boundary last]
    · rw [ends, Span.length, atOffset_boundary first, atOffset_boundary last, Occurrence.stop]
      exact Nat.add_sub_cancel_left o.offset o.length

theorem spans_beside_wide_characters :
    let text : Text := "ü\ré$\x7b\x7bname: a, value: 1\x7d\x7dü".toList
    let o : Occurrence := ⟨⟨['a'], .unknown, some (.raw ['1']), none⟩, 5, 22⟩
    let document : Document := ⟨text, [o], {}⟩
    (Span.covering text 3 24).stop = atOffset text 27 ∧ (Span.covering text 3 24).length = 24 ∧
      Span.covering text 4 23 = ⟨atOffset text 4, atOffset text 4⟩ ∧
      load {} text = .ok document ∧ (document.spanOf o).stop.offset = 27 ∧
      (document.spanOf o).start.line = (document.spanOf o).stop.line := by
  intro text o document
  have loaded : load {} text = .ok document := by decide +kernel
  obtain ⟨covers, marked⟩ := spans_cover_occurrences {} text
  obtain ⟨ends, length⟩ := (covers 3 24).1 (by decide)
  obtain ⟨point, -⟩ := (covers 4 23).2 (by decide)
  obtain ⟨-, -, stop, -, line⟩ := marked document loaded o List.mem_cons_self
  exact ⟨by rw [ends], length, point, loaded, stop, line⟩

theorem start_not_rewound (loaded : load options text = .ok document)
    (member : o ∈ document.occurrences) (paired : text.Paired) {start : Nat}
    (less : start < o.offset) : ¬ text.Rewound start o.offset := by
  rintro ⟨before, middle, after, rfl, first, width, rewinds⟩
  obtain ⟨front, inner, rest, whole, offset, -, -⟩ := occurrence_marked loaded member
  rw [List.append_assoc front] at whole
  have near : (before ++ middle).bytes = front.bytes := by
    rw [Text.bytes_append]
    omega
  obtain ⟨-, rfl⟩ := Text.append_inj whole near
  -- the mark that follows is no line feed, so no return is parted from its own
  exact Text.paired_not_rewinds paired (fun _ => by simp [openMark]) rewinds

theorem stop_not_rewound (loaded : load options text = .ok document)
    (member : o ∈ document.occurrences) (paired : text.Paired) :
    ¬ text.Rewound o.offset o.stop := by
  rintro ⟨before, middle, after, rfl, first, width, rewinds⟩
  obtain ⟨front, inner, rest, whole, offset, length, line⟩ := occurrence_marked loaded member
  rw [List.append_assoc, List.append_assoc front] at whole
  obtain ⟨-, behind⟩ := Text.append_inj whole (first.trans offset.symm)
  have near : middle.bytes = Text.bytes (openMark ++ inner ++ closeMark) := by
    rw [width, length, Occurrence.stop, Nat.add_sub_cancel_left]
  obtain ⟨rfl, -⟩ := Text.append_inj behind near
  refine Text.paired_not_rewinds paired (fun last => ?_) rewinds
  simp [closeMark] at last

theorem starts_before_iff {a b : Occurrence} (loaded : load options text = .ok document)
    (first : a ∈ document.occurrences) (second : b ∈ document.occurrences)
    (less : a.offset < b.offset) :
    (document.spanOf a).start.Before (document.spanOf b).start ↔
      ¬ text.Rewound a.offset b.offset := by
  rw [spanOf_ends loaded first, spanOf_ends loaded second]
  exact atOffset_before_iff (occurrence_boundaries loaded first).1
    (occurrence_boundaries loaded second).1 less

theorem stop_before_iff (loaded : load options text = .ok document)
    (member : o ∈ document.occurrences) :
    (document.spanOf o).start.Before (document.spanOf o).stop ↔
      ¬ text.Rewound o.offset o.stop := by
  obtain ⟨first, last⟩ := occurrence_boundaries loaded member
  obtain ⟨before, inner, after, -, -, length, -⟩ := occurrence_marked loaded member
  have some : 0 < o.length := by
    rw [← length, List.append_assoc, Text.bytes_append, openMark_bytes]
    omega
  rw [spanOf_ends loaded member]
  exact atOffset_before_iff first last (Nat.lt_add_of_pos_right some)

/-- The starts of the occurrences are printed in the order of the text, and an end behind its start,
except where a carriage return takes the column back. None does that if all belong to line feeds. -/
theorem spans_print_in_order (loaded : load options text = .ok document) :
    (document.occurrences.Pairwise fun a b =>
      (document.spanOf a).start.line ≤ (document.spanOf b).start.line ∧
      ((document.spanOf a).start.Before (document.spanOf b).start ↔
        ¬ text.Rewound a.offset b.offset) ∧
      (¬ text.Rewound a.offset b.offset →
        (document.spanOf a).start.text ≠ (document.spanOf b).start.text)) ∧
    (∀ o ∈ document.occurrences,
      ((document.spanOf o).start.Before (document.spanOf o).stop ↔
        ¬ text.Rewound o.offset o.stop)) ∧
    (text.Paired →
      (document.occurrences.Pairwise fun a b =>
        (document.spanOf a).start.Before (document.spanOf b).start ∧
        (document.spanOf a).start.text ≠ (document.spanOf b).start.text) ∧
      ∀ o ∈ document.occurrences, (document.spanOf o).start.Before (document.spanOf o).stop) := by
  have ascending := occurrences_ascending loaded
  refine ⟨?_, fun o => stop_before_iff loaded, fun paired => ⟨?_, fun o member => ?_⟩⟩
  · apply ascending.imp_of_mem
    intro a b first second less
    have ordered := starts_before_iff loaded first second less
    refine ⟨?_, ordered, fun forward => before_text_ne (ordered.mpr forward)⟩
    rw [spanOf_ends loaded first, spanOf_ends loaded second]
    exact atOffset_line_le (occurrence_boundaries loaded first).1
      (occurrence_boundaries loaded second).1 (Nat.le_of_lt less)
  · apply ascending.imp_of_mem
    intro a b first second less
    have forward := start_not_rewound loaded second paired less
    have before := (starts_before_iff loaded first second less).mpr forward
    exact ⟨before, before_text_ne before⟩
  · exact (stop_before_iff loaded member).mpr (stop_not_rewound loaded member paired)

theorem passed_and_paired_returns_keep_order :
    let text : Text := "é\r\n$\x7b\x7bname: a, value: 1\x7d\x7d\r ".toList ++
      "$\x7b\x7bname: b,\r value: 20\x7d\x7d".toList
    let first : Occurrence := ⟨⟨['a'], .unknown, some (.raw ['1']), none⟩, 4, 22⟩
    let second : Occurrence := ⟨⟨['b'], .unknown, some (.raw "20".toList), none⟩, 28, 24⟩
    let document : Document := ⟨text, [first, second], ⟨.lazy, false⟩⟩
    let paired : Text := text.take 25
    let alone : Document := ⟨paired, [first], {}⟩
    (load ⟨.lazy, false⟩ text = .ok document ∧ ¬ text.Rewound 4 28 ∧ ¬ text.Rewound 28 52 ∧
      (document.spanOf first).start.text ≠ (document.spanOf second).start.text) ∧
    load {} paired = .ok alone ∧ paired.Paired ∧
      (alone.spanOf first).start.Before (alone.spanOf first).stop := by
  intro text first second document paired alone
  have loaded : load ⟨.lazy, false⟩ text = .ok document := by decide +kernel
  have upper : load {} paired = .ok alone := by decide +kernel
  obtain ⟨starts, stops, -⟩ := spans_print_in_order loaded
  obtain ⟨-, -, whole⟩ := spans_print_in_order upper
  obtain ⟨-, ordered, differ⟩ := List.rel_of_pairwise_cons starts (List.mem_singleton_self second)
  have forward : ¬ text.Rewound 4 28 := ordered.mp (by decide +kernel)
  have feeds : paired.Paired := by decide
  refine ⟨⟨loaded, forward, ?_, differ forward⟩, upper, feeds, ?_⟩
  · exact (stops second (by simp [document])).mp (by decide +kernel)
  · exact (whole feeds).2 first List.mem_cons_self

/-- The first return puts two starts into one place, the second an end before its start. -/
theorem returns_undo_the_order :
    let text : Text := "$\x7b\x7bname: a, value: 1\x7d\x7d\r$\x7b\x7bname: b, value: 2\x7d\x7d".toList ++
      "$\x7b\x7bname: c,\rvalue: 3\x7d\x7d".toList
    let document : Document := ⟨text,
      [⟨⟨['a'], .unknown, some (.raw ['1']), none⟩, 0, 22⟩,
        ⟨⟨['b'], .unknown, some (.raw ['2']), none⟩, 23, 22⟩,
        ⟨⟨['c'], .unknown, some (.raw ['3']), none⟩, 45, 22⟩], ⟨.lazy, false⟩⟩
    load ⟨.lazy, false⟩ text = .ok document ∧
      (¬ document.occurrences.Pairwise fun a b =>
        (document.spanOf a).start.Before (document.spanOf b).start) ∧
      (¬ document.occurrences.Pairwise fun a b =>
        (document.spanOf a).start.text ≠ (document.spanOf b).start.text) ∧
      ¬ ∀ o ∈ document.occurrences, (document.spanOf o).start.Before (document.spanOf o).stop := by
  decide +kernel

end Stencil.Document
