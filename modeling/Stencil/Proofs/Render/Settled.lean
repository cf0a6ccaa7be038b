import Stencil.Proofs.Envelope.Recognition
import Stencil.Proofs.Render.Misfit

/-
When rendering comes to rest. If every occurrence is replaced by a text that forms no envelope with
the gaps around it, the output is a template without occurrences, and renders to itself.
-/
namespace Stencil

open Envelope

theorem Document.load_of_lacks {options : Options} {text : Text} (lacks : ¬ Holds text) :
    load options text = .ok ⟨text, [], options⟩ := by
  rw [load_ok, cut_of_not_holds lacks]
  exact ⟨[], rfl, rfl⟩

namespace Render

theorem render_without_occurrences (strict : Bool) (options : Options) (text : Text)
    (source : Lookup) : render strict ⟨text, [], options⟩ source = .ok text := by
  cases strict <;> rfl

theorem render_lacks {options : Options} {text output : Text} {document : Document}
    {source : Lookup} {strict : Bool} (loaded : Document.load options text = .ok document)
    (rendered : render strict document source = .ok output)
    (complete : ∀ o ∈ document.occurrences, ∃ value, o.declaration.resolve source = some value ∧
      Harmless options.reach value.text) : ¬ Holds output := by
  obtain ⟨given, harmless, rfl⟩ := render_refills loaded rendered complete
  apply refill_lacks
  · rw [List.length_map, Document.load_pieces loaded]
  · intro content member
    obtain ⟨o, within, rfl⟩ := List.mem_map.mp member
    exact harmless o within

theorem rendering_settles {options : Options} {text output : Text} {document : Document}
    {source : Lookup} {strict : Bool} (loaded : Document.load options text = .ok document)
    (rendered : render strict document source = .ok output)
    (complete : ∀ o ∈ document.occurrences, ∃ value, o.declaration.resolve source = some value ∧
      Harmless options.reach value.text) :
    ¬ Holds output ∧ (∀ reach, count reach output = 0) ∧
      ∃ settled, Document.load options output = .ok settled ∧ settled.occurrences = [] ∧
        ∀ strict again, render strict settled again = .ok output := by
  have lacks := render_lacks loaded rendered complete
  refine ⟨lacks, ?_, ⟨output, [], options⟩, Document.load_of_lacks lacks, rfl, ?_⟩
  · intro reach
    have none := (count_pos reach).not.mpr lacks
    omega
  · intro strict again
    exact render_without_occurrences strict options output again

theorem unclosed_and_unopened_values_settle :
    let lines : Document := ⟨"\x7d\x7d $\x7b\x7bname: a, value: 1\x7d\x7d \x7d\n".toList ++
        "$\x7b\x7bname: b, value: 2\x7d\x7d".toList,
      [⟨⟨['a'], .unknown, some (.raw ['1']), none⟩, 3, 22⟩,
        ⟨⟨['b'], .unknown, some (.raw ['2']), none⟩, 28, 22⟩], {}⟩
    let opening := (Source.table [(['a'], .string "$\x7b\x7b\n".toList), (['b'], .raw [])]).lookup
    let opened := "\x7d\x7d $\x7b\x7b\n \x7d\n".toList
    let joint : Document := ⟨"$$\x7b\x7bname: a, value: 1\x7d\x7d\x7b\x7bx\x7d\x7d".toList,
      [⟨⟨['a'], .unknown, some (.raw ['1']), none⟩, 1, 22⟩], ⟨.lazy, false⟩⟩
    let closing := (Source.table [(['a'], .string "\x7d\x7d".toList)]).lookup
    let closed := "$\x7d\x7d\x7b\x7bx\x7d\x7d".toList
    (render true lines opening = .ok opened ∧ ¬ Holds opened) ∧
      render false joint closing = .ok closed ∧ ¬ Holds closed ∧
        ∃ settled, Document.load ⟨.lazy, false⟩ closed = .ok settled ∧ settled.occurrences = [] ∧
          ∀ strict again, render strict settled again = .ok closed := by
  intro lines opening opened joint closing closed
  have upper : Document.load {} lines.text = .ok lines := by decide +kernel
  have lower : Document.load ⟨.lazy, false⟩ joint.text = .ok joint := by decide +kernel
  have first : render true lines opening = .ok opened := by decide +kernel
  have second : render false joint closing = .ok closed := by decide +kernel
  have greedy := rendering_settles upper first (by
    intro o member
    rcases List.mem_cons.mp member with rfl | later
    · exact ⟨_, rfl, by decide⟩
    · obtain rfl := List.mem_singleton.mp later
      exact ⟨_, rfl, by decide⟩)
  have lazy := rendering_settles lower second (by
    intro o member
    obtain rfl := List.mem_singleton.mp member
    exact ⟨_, rfl, by decide⟩)
  exact ⟨⟨first, greedy.1⟩, second, lazy.1, lazy.2.2⟩

end Render
end Stencil
