import Stencil.Proofs.Declaration.FirstFlaw
import Stencil.Proofs.Declaration.RoundTrip
import Stencil.Proofs.Envelope.LineByLine
import Stencil.Proofs.Position

/-
A scan reads each envelope of a text from its own bytes. It fails exactly when one of them cannot be
read, with the fault of the leftmost and the position of its first byte. What it finds between marks
is never taken for a text without marks.
-/
namespace Stencil

open Envelope

namespace Scan

/-- What reading the bytes from one offset to another as a declaration comes to. -/
def ReadsAs (lenient : Bool) (text : Text) (span : Nat × Nat)
    (outcome : Except Declaration.Fault Declaration) : Prop :=
  ∃ envelope, text.slice? span.1 span.2 = some envelope ∧
    Declaration.read lenient envelope = outcome

def Unread (lenient : Bool) (text : Text) (span : Nat × Nat) : Prop :=
  ¬ ∃ declaration, ReadsAs lenient text span (.ok declaration)

/-- The fault of an envelope, and the position of its first byte. -/
def FaultAt (lenient : Bool) (text : Text) (span : Nat × Nat) (fault : Fault) : Prop :=
  ReadsAs lenient text span (.error fault.cause) ∧
    ∃ before rest : Text, text = before ++ rest ∧ before.bytes = span.1 ∧
      fault.position = Position.behind before

variable {lenient : Bool} {text : Text} {span : Nat × Nat}

theorem readsAs_unique {a b : Except Declaration.Fault Declaration}
    (one : ReadsAs lenient text span a) (other : ReadsAs lenient text span b) : a = b := by
  obtain ⟨envelope, slice, rfl⟩ := one
  obtain ⟨again, same, rfl⟩ := other
  rw [slice] at same
  rw [Option.some.inj same]

theorem faultAt_unique {a b : Fault} (one : FaultAt lenient text span a)
    (other : FaultAt lenient text span b) : a = b := by
  obtain ⟨first, before, rest, rfl, width, position⟩ := one
  obtain ⟨second, front, back, parted, length, place⟩ := other
  have cause := Except.error.inj (readsAs_unique first second)
  obtain ⟨rfl, -⟩ := Text.append_inj parted (width.trans length.symm)
  cases a
  cases b
  simp_all

theorem readsAs_piece {before behind : List Piece} {piece : Piece} {tail : Text}
    {outcome : Except Declaration.Fault Declaration}
    (read : Declaration.read lenient piece.envelope = outcome)
    (first : span.1 = (assemble before []).bytes + piece.gap.bytes)
    (last : span.2 = span.1 + piece.envelope.bytes) :
    ReadsAs lenient (assemble (before ++ piece :: behind) tail) span outcome := by
  refine ⟨piece.envelope, ?_, read⟩
  rw [last, first]
  exact slice_piece before piece behind tail

theorem occurrence_reads {pieces : List Piece} {found : List Occurrence} {o : Occurrence}
    (located : occurrences lenient 0 pieces = .ok found) (member : o ∈ found)
    (others : List Piece) (tail : Text) :
    ReadsAs lenient (assemble (pieces ++ others) tail) (o.offset, o.stop) (.ok o.declaration) := by
  obtain ⟨earlier, later, rfl⟩ := List.append_of_mem member
  obtain ⟨before, piece, behind, rfl, -, read, offset, length⟩ := occurrences_piece located
  rw [Nat.zero_add] at offset
  have stop : o.stop = o.offset + piece.envelope.bytes := by rw [Occurrence.stop, length]
  rw [List.append_assoc, List.cons_append]
  exact readsAs_piece read offset stop

theorem spans_read {pieces : List Piece} {found : List Occurrence}
    (located : occurrences lenient 0 pieces = .ok found) (member : span ∈ spans 0 pieces)
    (others : List Piece) (tail : Text) :
    ∃ declaration, ReadsAs lenient (assemble (pieces ++ others) tail) span (.ok declaration) := by
  rw [← occurrences_spans located] at member
  obtain ⟨o, inside, rfl⟩ := List.mem_map.mp member
  exact ⟨o.declaration, occurrence_reads located inside others tail⟩

theorem fault_leftmost {pieces : List Piece} {offset : Nat} {cause : Declaration.Fault}
    (failed : occurrences lenient 0 pieces = .error (offset, cause)) (tail : Text) :
    ∃ span, Leftmost (Unread lenient (assemble pieces tail)) (spans 0 pieces) span ∧
      FaultAt lenient (assemble pieces tail) span
        ⟨Position.atOffset (assemble pieces tail) offset, cause⟩ := by
  obtain ⟨before, piece, behind, found, rfl, passed, read, place⟩ := occurrences_fault failed
  rw [Nat.zero_add] at place
  let span : Nat × Nat := (offset, offset + piece.envelope.bytes)
  have unread : ReadsAs lenient (assemble (before ++ piece :: behind) tail) span (.error cause) :=
    readsAs_piece read place rfl
  have listed : spans 0 (before ++ piece :: behind) =
      spans 0 before ++ span :: spans (offset + piece.envelope.bytes) behind := by
    rw [spans_append, spans, Nat.zero_add, ← place]
  refine ⟨span, ⟨spans 0 before, _, listed, ?_, ?_⟩, unread, ?_⟩
  · intro readable
    obtain ⟨declaration, reads⟩ := readable
    cases readsAs_unique unread reads
  · intro earlier member
    exact not_not_intro (spans_read passed member (piece :: behind) tail)
  · have parted : assemble (before ++ piece :: behind) tail =
        (assemble before [] ++ piece.gap) ++ (piece.envelope ++ assemble behind tail) := by
      rw [assemble_append, assemble_cons, assemble_tail before (_ ++ _)]
      simp
    have width : (assemble before [] ++ piece.gap).bytes = offset := by
      rw [Text.bytes_append, place]
    refine ⟨assemble before [] ++ piece.gap, _, parted, width, ?_⟩
    rw [parted, ← width]
    exact Position.atOffset_joint _ _

end Scan

open Scan

variable {options : Options} {text : Text}

theorem scan_reads {found : List Occurrence} (scanned : scan options text = .ok found)
    {o : Occurrence} (member : o ∈ found) :
    ReadsAs options.lenient text (o.offset, o.stop) (.ok o.declaration) := by
  have whole := assemble_cut options.reach text
  have reads := occurrence_reads (scan_ok.mp scanned) member [] (cut options.reach text).2
  rwa [List.append_nil, whole] at reads

theorem scan_ok_spans {found : List Occurrence} (scanned : scan options text = .ok found) :
    found.map (fun o => (o.offset, o.stop)) = spans 0 (cut options.reach text).1 :=
  occurrences_spans (scan_ok.mp scanned)

theorem scan_readable {found : List Occurrence} (scanned : scan options text = .ok found)
    {span : Nat × Nat} (member : span ∈ spans 0 (cut options.reach text).1) :
    ∃ declaration, ReadsAs options.lenient text span (.ok declaration) := by
  have whole := assemble_cut options.reach text
  have readable := spans_read (scan_ok.mp scanned) member [] (cut options.reach text).2
  rwa [List.append_nil, whole] at readable

theorem scan_unread {fault : Scan.Fault} (failed : scan options text = .error fault) :
    ∃ span, Leftmost (Unread options.lenient text) (spans 0 (cut options.reach text).1) span ∧
      FaultAt options.lenient text span fault := by
  obtain ⟨offset, located, position⟩ := scan_error.mp failed
  have leftmost := fault_leftmost located (cut options.reach text).2
  rwa [assemble_cut, ← position] at leftmost

theorem span_marked {span : Nat × Nat} (member : span ∈ spans 0 (cut options.reach text).1) :
    ∃ inner : Text, text.slice? span.1 span.2 = some (openMark ++ inner ++ closeMark) ∧
      isIn (openMark ++ inner ++ closeMark) ∧
      Declaration.inner? (openMark ++ inner ++ closeMark) = some inner := by
  obtain ⟨before, piece, behind, parted, first, last⟩ := spans_piece member
  have whole := assemble_cut options.reach text
  have anchored := cut_anchored options.reach text
  rw [parted] at whole anchored
  obtain ⟨-, found, -⟩ := anchored_append.mp anchored
  obtain ⟨inner, shape, some, line⟩ := atStart_shape found
  have stripped := Declaration.inner_of_marked some line
  refine ⟨inner, ?_, ?_, stripped⟩
  · rw [last, first, Nat.zero_add, ← whole, ← shape]
    exact slice_piece before piece behind _
  · rw [Declaration.inner?] at stripped
    split at stripped
    · assumption
    · cases stripped

theorem span_not_unmarked {span : Nat × Nat}
    (member : span ∈ spans 0 (cut options.reach text).1) (other : Text) :
    ¬ ReadsAs options.lenient text span (.error (.notPlaceholder other)) := by
  obtain ⟨inner, slice, -, stripped⟩ := span_marked member
  intro reads
  obtain ⟨envelope, same, failed⟩ := reads
  rw [slice] at same
  obtain rfl := Option.some.inj same
  obtain ⟨marked, uncut⟩ := Declaration.inner_eq_some.mp stripped
  have flaw := (Declaration.read_error failed).1
  cases flaw with
  | unmarked bare =>
    rcases bare with absent | unparted
    · exact absent marked
    · exact unparted _ (Declaration.segments_slice.mpr ⟨inner, uncut, rfl⟩)

/-- The envelopes are those that the marks of each line delimit. -/
theorem scan_stops_at_first_unread (options : Options) (text : Text) :
    let envelopes := linesSpans options.reach 0 (text.split '\n')
    ((∃ found, scan options text = .ok found) ↔
      ∀ span ∈ envelopes, ∃ d, ReadsAs options.lenient text span (.ok d)) ∧
    (∀ found, scan options text = .ok found →
      found.length = count options.reach text ∧
      found.map (fun o => (o.offset, o.stop)) = envelopes ∧
      ∀ o ∈ found, ReadsAs options.lenient text (o.offset, o.stop) (.ok o.declaration)) ∧
    (∀ fault, scan options text = .error fault ↔
      ∃ span, Leftmost (Unread options.lenient text) envelopes span ∧
        FaultAt options.lenient text span fault) ∧
    ∀ span ∈ envelopes,
      (∃ inner : Text, text.slice? span.1 span.2 = some (openMark ++ inner ++ closeMark) ∧
        isIn (openMark ++ inner ++ closeMark) ∧
        Declaration.inner? (openMark ++ inner ++ closeMark) = some inner) ∧
      ∀ other, ¬ ReadsAs options.lenient text span (.error (.notPlaceholder other)) := by
  intro envelopes
  have located : spans 0 (cut options.reach text).1 = envelopes := text_spans options.reach text
  rw [← located]
  refine ⟨⟨?_, ?_⟩, ?_, fun fault => ⟨scan_unread, ?_⟩, ?_⟩
  · intro scanned span member
    obtain ⟨found, scanned⟩ := scanned
    exact scan_readable scanned member
  · intro readable
    cases outcome : scan options text with
    | ok found => exact ⟨found, rfl⟩
    | error fault =>
      obtain ⟨span, leftmost, -⟩ := scan_unread outcome
      obtain ⟨member, unread⟩ := leftmost_mem leftmost
      exact absurd (readable span member) unread
  · intro found scanned
    have length := occurrences_length (scan_ok.mp scanned)
    exact ⟨length, scan_ok_spans scanned, fun o member => scan_reads scanned member⟩
  · intro first
    obtain ⟨span, leftmost, here⟩ := first
    cases outcome : scan options text with
    | ok found =>
      obtain ⟨member, unread⟩ := leftmost_mem leftmost
      exact absurd (scan_readable outcome member) unread
    | error other =>
      obtain ⟨again, found, there⟩ := scan_unread outcome
      obtain rfl := leftmost_unique leftmost found
      rw [faultAt_unique there here]
  · intro span member
    exact ⟨span_marked member, span_not_unmarked member⟩

theorem mismatch_before_malformed :
    let text : Text := "é\r\nü $\x7b\x7bname: a, value: 1\x7d\x7d\r ".toList ++
      "$\x7b\x7bname: b, type: NUMBER, value: x\x7d\x7d$\x7b\x7bc\x7d\x7d".toList
    let fault : Scan.Fault := ⟨⟨2, 2, 31⟩, .kindMismatch ['b'] .number .unknown⟩
    let sound := "ü$\x7b\x7bname: a, value: 1\x7d\x7d".toList
    let found : List Occurrence := [⟨⟨['a'], .unknown, some (.raw ['1']), none⟩, 2, 22⟩]
    (scan ⟨.lazy, false⟩ text = .error fault ∧
      ∃ span, Leftmost (Unread false text) (linesSpans .lazy 0 (text.split '\n')) span ∧
        FaultAt false text span fault) ∧
    scan {} sound = .ok found ∧ found.length = count .greedy sound ∧
      ∀ o ∈ found, ReadsAs false sound (o.offset, o.stop) (.ok o.declaration) := by
  intro text fault sound found
  have failed : scan ⟨.lazy, false⟩ text = .error fault := by decide +kernel
  have scanned : scan {} sound = .ok found := by decide +kernel
  obtain ⟨-, -, stops, -⟩ := scan_stops_at_first_unread ⟨.lazy, false⟩ text
  obtain ⟨-, reads, -, -⟩ := scan_stops_at_first_unread {} sound
  obtain ⟨length, -, declared⟩ := reads found scanned
  exact ⟨⟨failed, (stops fault).mp failed⟩, scanned, length, declared⟩

end Stencil
