import Mathlib.Data.List.Forall2
import Stencil.Proofs.Envelope.Refill
import Stencil.Proofs.Render.Filled

/-
A rendering seen from its template: the gaps are those of the template, and between them are the
images of the occurrences.
-/
namespace Stencil

/-- What takes the place of an occurrence: the text of its value, or without a value the bytes of
the template that hold it. -/
def Occurrence.image? (o : Occurrence) (template : Text) (source : Lookup) : Option Text :=
  match o.declaration.resolve source with
  | some value => some value.text
  | none => template.slice? o.offset o.stop

namespace Render

open Envelope

theorem fill_image {template : Text} {piece : Piece} {o : Occurrence} (source : Lookup)
    (own : template.slice? o.offset o.stop = some piece.envelope) :
    o.image? template source = some (fill source piece o).envelope := by
  rw [Occurrence.image?, fill]
  cases o.declaration.resolve source with
  | none => exact own
  | some value => rfl

theorem images_filled (source : Lookup) {lenient : Bool} (front tail : Text)
    {pieces : List Piece} {occurrences : List Occurrence}
    (located : Scan.occurrences lenient front.bytes pieces = .ok occurrences) :
    List.Forall₂ (fun piece o =>
      o.image? (front ++ assemble pieces tail) source = some (fill source piece o).envelope)
        pieces occurrences := by
  induction pieces generalizing occurrences front with
  | nil =>
    obtain rfl := Except.ok.inj located
    exact .nil
  | cons piece pieces ih =>
    obtain ⟨declaration, later, -, others, rfl⟩ := Scan.occurrences_cons_ok.mp located
    rw [← bytes_behind] at others
    have rest := ih (front ++ piece.gap ++ piece.envelope) others
    have own := Text.slice_middle (front ++ piece.gap) piece.envelope (assemble pieces tail)
    rw [Text.bytes_append] at own
    rw [assemble_cons]
    simp only [List.append_assoc] at own rest ⊢
    exact .cons (fill_image source own) rest

theorem fillAll_put {source : Lookup} {template : Text} {pieces : List Piece}
    {occurrences : List Occurrence} (filled : List.Forall₂ (fun piece o =>
      o.image? template source = some (fill source piece o).envelope) pieces occurrences) :
    ∃ shown : Occurrence → Text,
      (∀ o ∈ occurrences, o.image? template source = some (shown o)) ∧
        fillAll source pieces occurrences = put pieces (occurrences.map shown) := by
  refine ⟨fun o => (o.image? template source).getD [], ?_, ?_⟩
  · intro o member
    dsimp only
    induction filled with
    | nil => cases member
    | cons here _ ih =>
      rcases List.mem_cons.mp member with rfl | later
      · rw [here]
        rfl
      · exact ih later
  · induction filled with
    | nil => rfl
    | cons here _ ih =>
      rw [fillAll, put] at ih
      rw [fillAll, put, List.map_cons, List.zipWith_cons_cons, List.zipWith_cons_cons, ih, here]
      rfl

theorem outcome_eq_ok {α : Type} {fault : Option Fault} {result other : α} :
    outcome fault result = .ok other ↔ fault = none ∧ result = other := by
  cases fault <;> simp [outcome]

theorem outcome_eq_error {α : Type} {fault : Option Fault} {result : α} {found : Fault} :
    outcome fault result = .error found ↔ fault = some found := by
  cases fault <;> simp [outcome]

theorem render_ok_unstrict {strict : Bool} {document : Document} {source : Lookup} {output : Text}
    (rendered : render strict document source = .ok output) :
    render false document source = .ok output := by
  simp only [render] at rendered ⊢
  split at rendered
  · cases rendered
  · simpa using rendered

variable {options : Options} {text output : Text} {document : Document} {source : Lookup}
  {strict : Bool}

theorem render_filled (loaded : Document.load options text = .ok document)
    (rendered : render strict document source = .ok output) :
    output = assemble (fillAll source (cut options.reach text).1 document.occurrences)
      (cut options.reach text).2 := by
  have loose := render_ok_unstrict rendered
  rw [render_loaded loaded, outcome_eq_ok] at loose
  exact loose.2.symm

theorem render_images (loaded : Document.load options text = .ok document)
    (rendered : render strict document source = .ok output) :
    ∃ shown : Occurrence → Text,
      (∀ o ∈ document.occurrences, o.image? text source = some (shown o)) ∧
        output = refill options.reach text (document.occurrences.map shown) := by
  have filled := render_filled loaded rendered
  obtain ⟨found, located, rfl⟩ := Document.load_ok.mp loaded
  have images := images_filled source [] (cut options.reach text).2 located
  rw [List.nil_append, assemble_cut] at images
  obtain ⟨shown, shows, same⟩ := fillAll_put images
  exact ⟨shown, shows, by rw [filled, refill, same]⟩

end Render
end Stencil
