import Stencil.Proofs.Declaration.WellFormed
import Stencil.Proofs.Document.Lines
import Stencil.Proofs.Scan.Unread

/-
What is known of the occurrences of a loaded document: they stand one behind the other, and each
holds the declaration that was read from its own slice of the text.
-/
namespace Stencil.Document

open Envelope

variable {options : Options} {text : Text} {document : Document}

theorem occurrences_ascending (loaded : load options text = .ok document) :
    document.occurrences.Pairwise fun a b => a.offset < b.offset := by
  obtain ⟨found, located, rfl⟩ := load_ok.mp loaded
  have ascending := (linesSpans_separate options.reach text).ascending
  rwa [← text_spans, ← Scan.occurrences_spans located, List.pairwise_map] at ascending

theorem occurrence_read (loaded : load options text = .ok document) {o : Occurrence}
    (member : o ∈ document.occurrences) :
    ∃ envelope, text.slice? o.offset o.stop = some envelope ∧
      Declaration.read options.lenient envelope = .ok o.declaration := by
  obtain ⟨scanned, -, -⟩ := load_eq_ok.mp loaded
  exact scan_reads scanned member

theorem occurrence_readable (loaded : load options text = .ok document) {o : Occurrence}
    (member : o ∈ document.occurrences) : o.declaration.Readable := by
  obtain ⟨envelope, -, read⟩ := occurrence_read loaded member
  exact Declaration.read_readable read

theorem occurrence_offers (loaded : load options text = .ok document)
    (strict : options.lenient = false) {o : Occurrence} (member : o ∈ document.occurrences) :
    o.declaration.value.isSome ∨ o.declaration.fallback.isSome := by
  obtain ⟨envelope, -, read⟩ := occurrence_read loaded member
  rw [strict] at read
  exact Declaration.read_offers read

end Stencil.Document
