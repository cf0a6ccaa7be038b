import Stencil.Proofs.Render.Images

/-
Rendering works over its own output: each replacement moves what follows, and each envelope is
looked for again at its moved place. The result is nevertheless the template with its occurrences
replaced at the offsets they have there, whatever the values contain.
-/
namespace Stencil.Render

open Envelope

/-- The template from a byte offset on, with the images of the occurrences in their places. There is
none if the occurrences do not follow one another on character boundaries. -/
def splice? (template : Text) (source : Lookup) (start : Nat) : List Occurrence → Option Text
  | [] => template.slice? start template.bytes
  | o :: later => do
    let gap ← template.slice? start o.offset
    let image ← o.image? template source
    let rest ← splice? template source o.stop later
    return gap ++ image ++ rest

theorem splice_filled (source : Lookup) {lenient : Bool} (front tail : Text)
    {pieces : List Piece} {occurrences : List Occurrence}
    (located : Scan.occurrences lenient front.bytes pieces = .ok occurrences) :
    splice? (front ++ assemble pieces tail) source front.bytes occurrences =
      some (assemble (fillAll source pieces occurrences) tail) := by
  -- each piece joins the front of the pieces behind it
  induction pieces generalizing occurrences front with
  | nil =>
    obtain rfl := Except.ok.inj located
    exact Text.slice_end front tail
  | cons piece pieces ih =>
    have images := images_filled source front tail located
    obtain ⟨declaration, later, -, others, rfl⟩ := Scan.occurrences_cons_ok.mp located
    rw [← bytes_behind] at others
    have image := (List.forall₂_cons.mp images).1
    have gap := Text.slice_middle front piece.gap (piece.envelope ++ assemble pieces tail)
    have rest := ih (front ++ piece.gap ++ piece.envelope) others
    rw [splice?, image]
    simp only [Occurrence.stop, ← bytes_behind]
    simp only [assemble_cons, List.append_assoc] at gap rest ⊢
    simp [gap, rest, fillAll, assemble_cons, fill]

theorem render_splices_template {options : Options} {text output : Text} {document : Document}
    {source : Lookup} (loaded : Document.load options text = .ok document)
    (rendered : render false document source = .ok output) :
    splice? text source 0 document.occurrences = some output := by
  have filled := render_filled loaded rendered
  obtain ⟨found, located, rfl⟩ := Document.load_ok.mp loaded
  have spliced := splice_filled source [] (cut options.reach text).2 located
  rw [List.nil_append, assemble_cut] at spliced
  rw [filled]
  exact spliced

def crowdedLine : Document where
  text := "ü$\x7b\x7bname: a, type: STRING, value: 'x'\x7d\x7d ".toList ++
    "$\x7b\x7bname: n, type: NUMBER, value: no\x7d\x7d$\x7b\x7bname: b, value: 7\x7d\x7d!".toList
  occurrences :=
    [⟨⟨['a'], .string, some (.string ['x']), none⟩, 2, 38⟩,
      ⟨⟨['n'], .number, none, none⟩, 41, 37⟩,
      ⟨⟨['b'], .unknown, some (.raw ['7']), none⟩, 78, 22⟩]
  options := ⟨.lazy, true⟩

theorem marks_in_a_value_are_spliced :
    let source := (Source.table [(['a'], .string "$\x7b\x7bé\x7d\x7d\n".toList)]).lookup
    let output := "ü$\x7b\x7bé\x7d\x7d\n ".toList ++
      "$\x7b\x7bname: n, type: NUMBER, value: no\x7d\x7d7!".toList
    Document.load crowdedLine.options crowdedLine.text = .ok crowdedLine ∧
      render false crowdedLine source = .ok output ∧
      splice? crowdedLine.text source 0 crowdedLine.occurrences = some output := by
  intro source output
  have loaded : Document.load crowdedLine.options crowdedLine.text = .ok crowdedLine := by
    decide +kernel
  have rendered : render false crowdedLine source = .ok output := by decide +kernel
  exact ⟨loaded, rendered, render_splices_template loaded rendered⟩

end Stencil.Render
