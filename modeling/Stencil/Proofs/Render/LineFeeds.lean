import Mathlib.Algebra.BigOperators.Group.List.Basic
import Mathlib.Algebra.Ring.Nat
import Stencil.Proofs.Document.Loaded
import Stencil.Proofs.Render.Images

/-
Only the source can change the lines of a template. No envelope runs over a line feed and no
embedded value has one, so all line feeds of an output are those of the gaps and those of the values
that the source supplies. Without such a value each line is rendered by itself.
-/
namespace Stencil

open Envelope

def Occurrence.feeds (source : Lookup) (o : Occurrence) : Nat :=
  match source.resolve o.name with
  | some value => value.text.count '\n'
  | none => 0

namespace Render

theorem feeds_fill (source : Lookup) {piece : Piece} {o : Occurrence}
    (readable : o.declaration.Readable) (line : '\n' ∉ piece.envelope) :
    (fill source piece o).envelope.count '\n' = o.feeds source := by
  rw [fill, Occurrence.feeds, Declaration.resolve, Occurrence.name]
  cases source.resolve o.declaration.name with
  | some value => rfl
  | none =>
    apply List.count_eq_zero.mpr
    cases own : o.declaration.value with
    | some value => exact Value.text_line (readable.value value own).2
    | none =>
      cases spare : o.declaration.fallback with
      | some value => exact Value.text_line (readable.fallback value spare).2
      | none => exact line

theorem feeds_fillAll (source : Lookup) {pieces : List Piece} {occurrences : List Occurrence}
    (same : pieces.length = occurrences.length)
    (readable : ∀ o ∈ occurrences, o.declaration.Readable)
    (line : ∀ piece ∈ pieces, '\n' ∉ piece.envelope) (tail : Text) :
    (assemble (fillAll source pieces occurrences) tail).count '\n' =
      (assemble pieces tail).count '\n' + (occurrences.map (·.feeds source)).sum := by
  induction pieces generalizing occurrences with
  | nil =>
    obtain rfl := List.length_eq_zero_iff.mp same.symm
    rfl
  | cons piece pieces ih =>
    cases occurrences with
    | nil => cases same
    | cons o later =>
      obtain ⟨here, others⟩ := List.forall_mem_cons.mp readable
      obtain ⟨plain, rest⟩ := List.forall_mem_cons.mp line
      have filled := ih (Nat.succ.inj same) others rest
      have own := feeds_fill source here plain
      have gap : (fill source piece o).gap = piece.gap := rfl
      have envelope : piece.envelope.count '\n' = 0 := List.count_eq_zero.mpr plain
      rw [fillAll] at filled ⊢
      simp only [List.zipWith_cons_cons, assemble_cons, List.count_append, filled, own, gap,
        envelope, List.map_cons, List.sum_cons]
      omega

variable {options : Options} {text output : Text} {document : Document} {source : Lookup}
  {strict : Bool}

theorem render_feeds (loaded : Document.load options text = .ok document)
    (rendered : render strict document source = .ok output) :
    output.count '\n' =
      text.count '\n' + (document.occurrences.map (·.feeds source)).sum := by
  have line {piece : Piece} (member : piece ∈ (cut options.reach text).1) :=
    envelope_line (cut_anchored options.reach text) member
  have filled := feeds_fillAll source (Document.load_pieces loaded)
    (fun o => Document.occurrence_readable loaded) (fun piece => line) (cut options.reach text).2
  rw [assemble_cut] at filled
  rw [render_filled loaded rendered, filled]

/-- What becomes of a line: the same gaps, with the images of its own occurrences. -/
def LineImage (options : Options) (source : Lookup) (line image : Text) : Prop :=
  ∃ document, Document.load options line = .ok document ∧ ∃ shown : Occurrence → Text,
    (∀ o ∈ document.occurrences, o.image? line source = some (shown o)) ∧
      image = refill options.reach line (document.occurrences.map shown)

def Flat (source : Lookup) (occurrences : List Occurrence) : Prop :=
  ∀ o ∈ occurrences, ∀ value, source.resolve o.name = some value → '\n' ∉ value.text

theorem feeds_flat {occurrences : List Occurrence} (flat : Flat source occurrences) :
    (occurrences.map (·.feeds source)).sum = 0 := by
  apply List.sum_eq_zero
  intro count member
  obtain ⟨o, within, rfl⟩ := List.mem_map.mp member
  rw [Occurrence.feeds]
  split
  · next value given => exact List.count_eq_zero.mpr (flat o within value given)
  · rfl

theorem line_stays (loaded : Document.load options text = .ok document)
    (rendered : render strict document source = .ok output)
    (flat : Flat source document.occurrences) (line : '\n' ∉ text) : '\n' ∉ output := by
  rw [← List.count_eq_zero, render_feeds loaded rendered, feeds_flat flat, Nat.add_zero]
  exact List.count_eq_zero.mpr line

theorem line_image (loaded : Document.load options text = .ok document)
    (rendered : render strict document source = .ok output) :
    LineImage options source text output := by
  obtain ⟨shown, shows, filled⟩ := render_images loaded rendered
  exact ⟨document, loaded, shown, shows, filled⟩

theorem lines_images {lines : List Text} (some : lines ≠ []) (plain : ∀ line ∈ lines, '\n' ∉ line)
    (loaded : Document.load options (Text.join ['\n'] lines) = .ok document)
    (rendered : render false document source = .ok output)
    (flat : Flat source document.occurrences) :
    List.Forall₂ (LineImage options source) lines (output.split '\n') := by
  induction lines generalizing document output with
  | nil => exact absurd rfl some
  | cons line lines ih =>
    obtain ⟨here, others⟩ := List.forall_mem_cons.mp plain
    cases lines with
    | nil =>
      rw [Text.split_of_not_mem (line_stays loaded rendered flat here)]
      exact .cons (line_image loaded rendered) .nil
    | cons next later =>
      have more : next :: later ≠ [] := List.cons_ne_nil next later
      rw [Text.join_cons more, List.append_assoc, List.singleton_append] at loaded
      -- what is above a line feed loads and renders by itself
      obtain ⟨first, second, upper, lower, joined⟩ := Document.load_parts loaded
      rw [Document.render_lines upper lower loaded joined] at rendered
      obtain ⟨top, above, rest⟩ := bind_eq_ok.mp rendered
      obtain ⟨bottom, below, same⟩ := bind_eq_ok.mp rest
      obtain rfl := Except.ok.inj same
      have flatAbove : Flat source first.occurrences := fun o member =>
        flat o (joined ▸ List.mem_append_left _ member)
      have flatBelow : Flat source second.occurrences := fun o member =>
        flat (o.below line) (joined ▸ List.mem_append_right _ (List.mem_map_of_mem member))
      rw [Text.split_append, Text.split_of_not_mem (line_stays upper above flatAbove here)]
      exact .cons (line_image upper above) (ih more others lower below flatBelow)

/-- An output has the line feeds of the template and of the values supplied, none of them from what
is embedded. If there are none in the values, the lines stay, and each has its own images in it. -/
theorem embedded_values_keep_lines (loaded : Document.load options text = .ok document)
    (rendered : render strict document source = .ok output) :
    output.count '\n' =
        text.count '\n' + (document.occurrences.map (·.feeds source)).sum ∧
      ((∀ name ∈ document.names, ∀ value, source.resolve name = some value →
          '\n' ∉ value.text) →
        (output.split '\n').length = (text.split '\n').length ∧
          List.Forall₂ (LineImage options source) (text.split '\n') (output.split '\n')) := by
  refine ⟨render_feeds loaded rendered, ?_⟩
  intro single
  have flat : Flat source document.occurrences := fun o member =>
    single o.name (Document.name_mem member)
  have plain : ∀ line ∈ text.split '\n', '\n' ∉ line := fun line => Text.split_free
  have whole : Document.load options (Text.join ['\n'] (text.split '\n')) = .ok document := by
    rwa [Text.join_split]
  have images := lines_images (Text.split_ne_nil '\n' text) plain whole
    (render_ok_unstrict rendered) flat
  exact ⟨images.length_eq.symm, images⟩

theorem two_line_value_adds_two_lines :
    let document : Document := ⟨"$\x7b\x7bname: a, value: 1\x7d\x7d\r\n".toList ++
        "$\x7b\x7bname: b, type: STRING, defaultValue: 'é'\x7d\x7d".toList ++
        "$\x7b\x7bname: a, value: 2\x7d\x7d".toList,
      [⟨⟨['a'], .unknown, some (.raw ['1']), none⟩, 0, 22⟩,
        ⟨⟨['b'], .string, none, some (.string ['é'])⟩, 24, 46⟩,
        ⟨⟨['a'], .unknown, some (.raw ['2']), none⟩, 70, 22⟩], ⟨.lazy, false⟩⟩
    let tall := (Source.table [(['a'], .string "u\nv".toList)]).lookup
    let flat := (Source.table [(['a'], .boolean true), (['c'], .raw ['\n'])]).lookup
    let high := "u\nv\r\néu\nv".toList
    let low := "true\r\nétrue".toList
    Document.load ⟨.lazy, false⟩ document.text = .ok document ∧
      (render false document tall = .ok high ∧ high.count '\n' =
        document.text.count '\n' + (document.occurrences.map (·.feeds tall)).sum) ∧
      (render false document flat = .ok low ∧
        List.Forall₂ (LineImage ⟨.lazy, false⟩ flat) (document.text.split '\n')
          ["true\r".toList, "étrue".toList]) := by
  intro document tall flat high low
  have loaded : Document.load ⟨.lazy, false⟩ document.text = .ok document := by decide +kernel
  have grown : render false document tall = .ok high := by decide +kernel
  have kept : render false document flat = .ok low := by decide +kernel
  have single : ∀ name ∈ document.names, ∀ value, flat.resolve name = some value →
      '\n' ∉ value.text := by
    intro name member value given
    have names : name = ['a'] ∨ name = ['b'] := by
      have known : document.names = [['a'], ['b']] := by decide
      simpa [known] using member
    rcases names with rfl | rfl
    · obtain rfl := Option.some.inj given
      decide
    · cases given
  exact ⟨loaded, ⟨grown, (embedded_values_keep_lines loaded grown).1⟩, kept,
    ((embedded_values_keep_lines loaded kept).2 single).2⟩

end Render
end Stencil
