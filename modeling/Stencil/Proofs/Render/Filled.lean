import Mathlib.Data.List.Infix
import Stencil.Proofs.Envelope.Anchor
import Stencil.Proofs.Scan.Occurrences
import Stencil.Render

/-
What a rendering does to the pieces of a template: each occurrence that can be resolved has the text
of its value in place of its envelope, and the gaps stay. The loop works on one text with moving
offsets; it is always at the pieces still ahead, behind those already filled. It fails at the first
occurrence whose value is not of its kind, which the texts before it do not influence.
-/
namespace Stencil.Render

open Envelope

def clash? (source : Lookup) (o : Occurrence) : Option Fault :=
  match o.declaration.resolve source with
  | none => none
  | some value =>
    if o.declaration.admits value then none
    else some (.kindMismatch o.name o.declaration.kind value)

/-- A piece with the value of its occurrence, or without one as it is. -/
def fill (source : Lookup) (piece : Piece) (o : Occurrence) : Piece :=
  ⟨piece.gap, ((o.declaration.resolve source).map Value.text).getD piece.envelope⟩

def fillAll (source : Lookup) (pieces : List Piece) (occurrences : List Occurrence) : List Piece :=
  List.zipWith (fill source) pieces occurrences

def outcome {α : Type} (fault : Option Fault) (result : α) : Except Fault α :=
  match fault with
  | some fault => .error fault
  | none => .ok result

theorem fillAll_append (source : Lookup) {pieces : List Piece} {occurrences : List Occurrence}
    (same : pieces.length = occurrences.length) (others : List Piece) (later : List Occurrence) :
    fillAll source (pieces ++ others) (occurrences ++ later) =
      fillAll source pieces occurrences ++ fillAll source others later :=
  List.zipWith_append same

theorem assemble_fillAll_prepend (source : Lookup) (front : Text)
    {cutting : List Piece × Text} {occurrences : List Occurrence}
    (same : cutting.1.length = occurrences.length) :
    assemble (fillAll source (prepend front cutting).1 occurrences) (prepend front cutting).2 =
      front ++ assemble (fillAll source cutting.1 occurrences) cutting.2 := by
  obtain ⟨pieces, tail⟩ := cutting
  cases pieces with
  | nil => rfl
  | cons piece pieces =>
    cases occurrences with
    | nil => cases same
    | cons o later => simp [prepend, fillAll, fill, assemble]

namespace Pass

theorem replace_anchored {reach : Reach} {before envelope after value : Text} {shift : Int}
    (found : atStart? reach (envelope ++ after) = some (envelope, after)) :
    replace reach ⟨before ++ (envelope ++ after), shift⟩ before.bytes value =
      ⟨before ++ value ++ after, shift + value.bytes - envelope.bytes⟩ := by
  simp only [replace, Text.cutAt_bytes, found]

/-- In the middle of the work: `done` has taken the place of `front`, and `ahead` is still to come
as it is in the template. -/
def midway (front done ahead : Text) : Pass := ⟨done ++ ahead, (done.bytes : Int) - front.bytes⟩

theorem place_midway {front gap : Text} {o : Occurrence} (offset : o.offset = (front ++ gap).bytes)
    (done ahead : Text) : place (midway front done ahead) o = (done ++ gap).bytes := by
  simp only [place, midway, offset, Text.bytes_append]
  omega

theorem step_midway {reach : Reach} {piece : Piece} {after : Text} (source : Lookup)
    (front done : Text) (declaration : Declaration)
    (found : atStart? reach (piece.envelope ++ after) = some (piece.envelope, after)) :
    let o : Occurrence := ⟨declaration, (front ++ piece.gap).bytes, piece.envelope.bytes⟩
    step reach source (midway front done (piece.gap ++ (piece.envelope ++ after))) o =
      outcome (clash? source o) (midway (front ++ piece.gap ++ piece.envelope)
        (done ++ piece.gap ++ (fill source piece o).envelope) after) := by
  intro o
  have place : place (midway front done (piece.gap ++ (piece.envelope ++ after))) o =
      (done ++ piece.gap).bytes := place_midway rfl done _
  have parted : done ++ (piece.gap ++ (piece.envelope ++ after)) =
      done ++ piece.gap ++ (piece.envelope ++ after) := by simp
  rw [step, clash?, fill, place]
  cases o.declaration.resolve source with
  | none =>
    simp only [outcome, midway, Option.map_none, Option.getD_none, Text.bytes_append,
      Int.natCast_add]
    congr 2
    · simp
    · omega
  | some value =>
    by_cases admitted : o.declaration.admits value
    · simp only [admitted, ↓reduceIte, outcome, Option.map_some, Option.getD_some]
      rw [midway, parted, replace_anchored found, midway]
      congr 2
      simp only [Text.bytes_append, Int.natCast_add]
      omega
    · simp only [admitted, Bool.false_eq_true, ↓reduceIte, outcome]

theorem run_midway {reach : Reach} {lenient : Bool} {tail : Text} {pieces : List Piece}
    {occurrences : List Occurrence} (source : Lookup) (front done : Text)
    (anchored : Anchored reach tail pieces)
    (located : Scan.occurrences lenient front.bytes pieces = .ok occurrences) :
    occurrences.foldlM (step reach source) (midway front done (assemble pieces tail)) =
      outcome (occurrences.findSome? (clash? source)) (midway (front ++ assemble pieces [])
        (done ++ assemble (fillAll source pieces occurrences) []) tail) := by
  -- on the pieces of the template still ahead
  induction pieces generalizing occurrences front done with
  | nil =>
    obtain rfl := Except.ok.inj located
    simp [assemble, fillAll, outcome, pure, Except.pure]
  | cons piece pieces ih =>
    obtain ⟨declaration, later, -, others, rfl⟩ := Scan.occurrences_cons_ok.mp located
    obtain ⟨found, rest⟩ := anchored
    rw [← Text.bytes_append]
    rw [← bytes_behind] at others
    rw [List.foldlM_cons, assemble_cons, List.append_assoc,
      step_midway source front done declaration found, List.findSome?_cons]
    cases clash? source ⟨declaration, (front ++ piece.gap).bytes, piece.envelope.bytes⟩ with
    | some fault => rfl
    | none =>
      have onward := ih (front ++ piece.gap ++ piece.envelope) (done ++ piece.gap ++ (fill source
        piece ⟨declaration, (front ++ piece.gap).bytes, piece.envelope.bytes⟩).envelope)
        rest others
      refine onward.trans ?_
      simp only [fillAll, List.zipWith_cons_cons, assemble_cons, List.append_assoc]
      rfl

end Pass

theorem loop_meets {reach : Reach} {lenient : Bool} {source : Lookup} {tail : Text}
    {pieces : List Piece} {earlier later : List Occurrence} {o : Occurrence} {pass : Pass}
    (anchored : Anchored reach tail pieces)
    (located : Scan.occurrences lenient 0 pieces = .ok (earlier ++ o :: later))
    (run : earlier.foldlM (Pass.step reach source) ⟨assemble pieces tail, 0⟩ = .ok pass) :
    ∃ front done gap envelope after : Text,
      pass = Pass.midway front done (gap ++ (envelope ++ after)) ∧
      o.offset = (front ++ gap).bytes ∧ o.length = envelope.bytes ∧
      atStart? reach (envelope ++ after) = some (envelope, after) := by
  obtain ⟨before, piece, behind, rfl, first, -, offset, length⟩ := Scan.occurrences_piece located
  obtain ⟨passed, found, -⟩ := anchored_append.mp anchored
  have start : (⟨assemble (before ++ piece :: behind) tail, 0⟩ : Pass) =
      Pass.midway [] [] (assemble before (assemble (piece :: behind) tail)) := by
    rw [assemble_append]
    rfl
  rw [start, Pass.run_midway source [] [] passed first, assemble_cons, List.append_assoc] at run
  refine ⟨assemble before [], assemble (fillAll source before earlier) [], piece.gap,
    piece.envelope, assemble behind tail, ?_, ?_, length, found⟩
  · cases clash : earlier.findSome? (clash? source) with
    | some fault =>
      rw [clash] at run
      cases run
    | none =>
      rw [clash] at run
      exact (Except.ok.inj run).symm
  · rw [offset, Text.bytes_append, Nat.zero_add]

theorem midway_stands {reach : Reach} {front done gap envelope after : Text} {o : Occurrence}
    (offset : o.offset = (front ++ gap).bytes) (length : o.length = envelope.bytes)
    (found : atStart? reach (envelope ++ after) = some (envelope, after)) :
    StandsAt reach (Pass.midway front done (gap ++ (envelope ++ after))).working
      ((Pass.midway front done (gap ++ (envelope ++ after))).place o) o.length := by
  refine ⟨done ++ gap, envelope, after, by simp [Pass.midway], ?_, length.symm, found⟩
  exact (Pass.place_midway offset done _).symm

theorem render_loaded {options : Options} {text : Text} {document : Document}
    (loaded : Document.load options text = .ok document) (source : Lookup) :
    render false document source = outcome (document.occurrences.findSome? (clash? source))
      (assemble (fillAll source (cut options.reach text).1 document.occurrences)
        (cut options.reach text).2) := by
  obtain ⟨found, located, rfl⟩ := Document.load_ok.mp loaded
  have start : (⟨text, 0⟩ : Pass) =
      Pass.midway [] [] (assemble (cut options.reach text).1 (cut options.reach text).2) := by
    rw [assemble_cut]
    rfl
  have run := Pass.run_midway source [] [] (cut_anchored options.reach text) located
  have substituted : render false ⟨text, found, options⟩ source =
      substitute ⟨text, found, options⟩ source := by
    simp [render]
  rw [substituted, substitute]
  simp only [start, run]
  cases found.findSome? (clash? source) with
  | some fault => rfl
  | none =>
    rw [assemble_tail _ (cut options.reach text).2]
    rfl

end Stencil.Render
