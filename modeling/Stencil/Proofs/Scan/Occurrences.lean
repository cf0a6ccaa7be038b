import Stencil.Document
import Stencil.Proofs.Envelope.Lines
import Stencil.Proofs.Outcome

/-
A scan that succeeds has read every envelope, and its occurrences stand where the envelopes stand.
A text loads exactly if it scans.
-/
namespace Stencil

open Envelope

namespace Scan

theorem occurrences_cons_ok {lenient : Bool} {start : Nat} {piece : Piece}
    {pieces : List Piece} {found : List Occurrence} :
    occurrences lenient start (piece :: pieces) = .ok found ↔
      ∃ declaration later, Declaration.read lenient piece.envelope = .ok declaration ∧
        occurrences lenient (start + piece.gap.bytes + piece.envelope.bytes) pieces = .ok later ∧
        found = ⟨declaration, start + piece.gap.bytes, piece.envelope.bytes⟩ :: later := by
  rw [occurrences]
  cases Declaration.read lenient piece.envelope with
  | error fault => simp
  | ok declaration =>
    simp only [map_eq_ok, Except.ok.injEq]
    constructor
    · rintro ⟨later, located, rfl⟩
      exact ⟨declaration, later, rfl, located, rfl⟩
    · rintro ⟨_, later, rfl, located, rfl⟩
      exact ⟨later, located, rfl⟩

theorem occurrences_spans {lenient : Bool} {start : Nat} {pieces : List Piece}
    {found : List Occurrence} (located : occurrences lenient start pieces = .ok found) :
    found.map (fun o => (o.offset, o.stop)) = spans start pieces := by
  induction pieces generalizing start found with
  | nil =>
    obtain rfl := Except.ok.inj located
    rfl
  | cons piece pieces ih =>
    obtain ⟨declaration, later, -, others, rfl⟩ := occurrences_cons_ok.mp located
    rw [List.map_cons, ih others]
    rfl

theorem occurrences_from {lenient : Bool} {front : Text} {pieces : List Piece}
    {found : List Occurrence} (located : occurrences lenient front.bytes pieces = .ok found) :
    ∀ o ∈ found, front.bytes ≤ o.offset := by
  intro o member
  have span : (o.offset, o.stop) ∈ spans front.bytes pieces := by
    rw [← occurrences_spans located]
    exact List.mem_map_of_mem member
  obtain ⟨-, -, first, -⟩ := spans_within front [] span
  exact first

theorem occurrences_length {lenient : Bool} {start : Nat} {pieces : List Piece}
    {found : List Occurrence} (located : occurrences lenient start pieces = .ok found) :
    found.length = pieces.length := by
  have count := congrArg List.length (occurrences_spans located)
  rwa [List.length_map, spans_length] at count

theorem occurrences_split {lenient : Bool} {start : Nat} {pieces : List Piece}
    {earlier later : List Occurrence}
    (located : occurrences lenient start pieces = .ok (earlier ++ later)) :
    ∃ before behind, pieces = before ++ behind ∧ occurrences lenient start before = .ok earlier ∧
      occurrences lenient (start + (assemble before []).bytes) behind = .ok later := by
  induction earlier generalizing start pieces with
  | nil => exact ⟨[], pieces, rfl, rfl, located⟩
  | cons o earlier ih =>
    cases pieces with
    | nil => cases located
    | cons piece pieces =>
      obtain ⟨declaration, rest, read, others, same⟩ := occurrences_cons_ok.mp located
      obtain ⟨rfl, rfl⟩ := List.cons.inj same
      obtain ⟨before, behind, rfl, first, second⟩ := ih others
      refine ⟨piece :: before, behind, rfl, ?_, ?_⟩
      · exact occurrences_cons_ok.mpr ⟨declaration, earlier, read, first, rfl⟩
      · rwa [offset_behind_cons]

theorem occurrences_piece {lenient : Bool} {start : Nat} {pieces : List Piece}
    {earlier later : List Occurrence} {o : Occurrence}
    (located : occurrences lenient start pieces = .ok (earlier ++ o :: later)) :
    ∃ before piece behind, pieces = before ++ piece :: behind ∧
      occurrences lenient start before = .ok earlier ∧
      Declaration.read lenient piece.envelope = .ok o.declaration ∧
      o.offset = start + (assemble before []).bytes + piece.gap.bytes ∧
      o.length = piece.envelope.bytes := by
  obtain ⟨before, behind, rfl, first, second⟩ := occurrences_split located
  cases behind with
  | nil => cases second
  | cons piece behind =>
    obtain ⟨declaration, _, read, -, same⟩ := occurrences_cons_ok.mp second
    obtain ⟨rfl, -⟩ := List.cons.inj same
    exact ⟨before, piece, behind, rfl, first, read, rfl, rfl⟩

theorem occurrences_append (lenient : Bool) (start : Nat) (pieces others : List Piece) :
    occurrences lenient start (pieces ++ others) =
      occurrences lenient start pieces >>= fun found =>
        (occurrences lenient (start + (assemble pieces []).bytes) others).map (found ++ ·) := by
  induction pieces generalizing start with
  | nil =>
    cases outcome : occurrences lenient start others with
    | error fault => simp [occurrences, outcome, assemble, Text.bytes, bind, Except.bind, Except.map]
    | ok found => simp [occurrences, outcome, assemble, Text.bytes, bind, Except.bind, Except.map]
  | cons piece pieces ih =>
    rw [List.cons_append, occurrences, occurrences, offset_behind_cons]
    cases Declaration.read lenient piece.envelope with
    | error cause => rfl
    | ok declaration =>
      simp only [ih]
      cases occurrences lenient (start + piece.gap.bytes + piece.envelope.bytes) pieces with
      | error fault => rfl
      | ok found =>
        cases occurrences lenient
            (start + piece.gap.bytes + piece.envelope.bytes + (assemble pieces []).bytes) others with
        | error fault => rfl
        | ok later => rfl

theorem occurrences_append_ok {lenient : Bool} {start : Nat} {pieces others : List Piece}
    {found later : List Occurrence} (first : occurrences lenient start pieces = .ok found)
    (second : occurrences lenient (start + (assemble pieces []).bytes) others = .ok later) :
    occurrences lenient start (pieces ++ others) = .ok (found ++ later) := by
  rw [occurrences_append, first]
  simp [bind, Except.bind, Except.map, second]

theorem occurrences_prepend (lenient : Bool) (start : Nat) (front : Text)
    (cutting : List Piece × Text) :
    occurrences lenient start (prepend front cutting).1 =
      occurrences lenient (start + front.bytes) cutting.1 := by
  obtain ⟨pieces, tail⟩ := cutting
  cases pieces with
  | nil => rfl
  | cons piece pieces => simp only [prepend, occurrences, Text.bytes_append, Nat.add_assoc]

/-- Moving a text moves its occurrences, and the envelope a fault is at. -/
theorem occurrences_shift (lenient : Bool) (start distance : Nat) (pieces : List Piece) :
    occurrences lenient (start + distance) pieces =
      match occurrences lenient start pieces with
      | .ok found => .ok (found.map fun o => { o with offset := o.offset + distance })
      | .error (offset, cause) => .error (offset + distance, cause) := by
  induction pieces generalizing start with
  | nil => rfl
  | cons piece pieces ih =>
    have gap : start + distance + piece.gap.bytes = start + piece.gap.bytes + distance :=
      Nat.add_right_comm start distance piece.gap.bytes
    have behind : start + piece.gap.bytes + distance + piece.envelope.bytes =
        start + piece.gap.bytes + piece.envelope.bytes + distance :=
      Nat.add_right_comm _ distance piece.envelope.bytes
    simp only [occurrences, gap, behind, ih]
    cases Declaration.read lenient piece.envelope with
    | error cause => rfl
    | ok declaration =>
      cases occurrences lenient (start + piece.gap.bytes + piece.envelope.bytes) pieces with
      | error fault => rfl
      | ok found => rfl

theorem occurrences_fault {lenient : Bool} {start offset : Nat} {pieces : List Piece}
    {cause : Declaration.Fault} (failed : occurrences lenient start pieces = .error (offset, cause)) :
    ∃ before piece behind found, pieces = before ++ piece :: behind ∧
      occurrences lenient start before = .ok found ∧
      Declaration.read lenient piece.envelope = .error cause ∧
      offset = start + (assemble before []).bytes + piece.gap.bytes := by
  induction pieces generalizing start with
  | nil => cases failed
  | cons piece pieces ih =>
    rw [occurrences] at failed
    cases read : Declaration.read lenient piece.envelope with
    | error other =>
      simp only [read, Except.error.injEq, Prod.mk.injEq] at failed
      obtain ⟨rfl, rfl⟩ := failed
      exact ⟨[], piece, pieces, [], rfl, rfl, read, rfl⟩
    | ok declaration =>
      simp only [read, map_eq_error] at failed
      obtain ⟨before, broken, behind, found, rfl, first, unread, place⟩ := ih failed
      rw [← offset_behind_cons] at place
      have passed := occurrences_cons_ok.mpr ⟨declaration, found, read, first, rfl⟩
      exact ⟨piece :: before, broken, behind, _, rfl, passed, unread, place⟩

theorem occurrences_fault_within {lenient : Bool} {start offset : Nat} {pieces : List Piece}
    {cause : Declaration.Fault} (failed : occurrences lenient start pieces = .error (offset, cause)) :
    offset ≤ start + (assemble pieces []).bytes := by
  obtain ⟨before, piece, behind, found, rfl, -, -, rfl⟩ := occurrences_fault failed
  rw [assemble_append, assemble_cons, assemble_bytes before (_ ++ _)]
  simp only [Text.bytes_append]
  omega

theorem occurrences_append_line {lenient : Bool} {reach : Reach} {start : Nat} {a b : Text}
    {found later : List Occurrence}
    (first : occurrences lenient start (cut reach a).1 = .ok found)
    (second : occurrences lenient (start + a.bytes + 1) (cut reach b).1 = .ok later) :
    occurrences lenient start (cut reach (a ++ '\n' :: b)).1 = .ok (found ++ later) := by
  rw [cut_append_line]
  apply occurrences_append_ok first
  rwa [occurrences_prepend, joint_offset]

end Scan

theorem scan_ok {options : Options} {text : Text} {found : List Occurrence} :
    scan options text = .ok found ↔
      Scan.occurrences options.lenient 0 (cut options.reach text).1 = .ok found := by
  rw [scan]
  cases Scan.occurrences options.lenient 0 (cut options.reach text).1 with
  | error fault => simp
  | ok found => simp

theorem scan_error {options : Options} {text : Text} {fault : Scan.Fault} :
    scan options text = .error fault ↔ ∃ offset,
      Scan.occurrences options.lenient 0 (cut options.reach text).1 = .error (offset, fault.cause) ∧
        fault.position = Position.atOffset text offset := by
  obtain ⟨position, cause⟩ := fault
  rw [scan]
  cases Scan.occurrences options.lenient 0 (cut options.reach text).1 with
  | error found =>
    obtain ⟨offset, other⟩ := found
    simp only [Except.error.injEq, Scan.Fault.mk.injEq, Prod.mk.injEq]
    constructor
    · rintro ⟨rfl, rfl⟩
      exact ⟨offset, ⟨rfl, rfl⟩, rfl⟩
    · rintro ⟨_, ⟨rfl, rfl⟩, rfl⟩
      exact ⟨rfl, rfl⟩
  | ok found => simp

theorem Document.load_ok {options : Options} {text : Text} {document : Document} :
    load options text = .ok document ↔ ∃ found,
      Scan.occurrences options.lenient 0 (cut options.reach text).1 = .ok found ∧
      document = ⟨text, found, options⟩ := by
  simp only [load, reload, map_eq_ok, empty, scan_ok, @eq_comm _ document]

theorem Document.load_eq_ok {options : Options} {text : Text} {document : Document} :
    load options text = .ok document ↔
      scan options text = .ok document.occurrences ∧ document.text = text ∧
        document.options = options := by
  obtain ⟨own, occurrences, chosen⟩ := document
  rw [load_ok, scan_ok]
  simp only [Document.mk.injEq]
  constructor
  · rintro ⟨found, located, rfl, rfl, rfl⟩
    exact ⟨located, rfl, rfl⟩
  · rintro ⟨located, rfl, rfl⟩
    exact ⟨occurrences, located, rfl, rfl, rfl⟩

theorem Document.load_eq_error {options : Options} {text : Text} {fault : Scan.Fault} :
    load options text = .error fault ↔ scan options text = .error fault := by
  rw [load, reload, map_eq_error]
  rfl

end Stencil
