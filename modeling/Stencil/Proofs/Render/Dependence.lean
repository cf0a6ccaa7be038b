import Stencil.Proofs.Render.Splice

/-
A rendering asks its source about the variables of its document and about nothing else, so two
sources that agree on these give the same text or the same fault. If they agree on all but one, the
texts differ only where that one occurs, however far this moves what follows.
-/
namespace Stencil

structure Lookup.Agree (a b : Lookup) (name : Text) : Prop where
  resolve : a.resolve name = b.resolve name
  contains : a.contains name = b.contains name

instance (a b : Lookup) (name : Text) : Decidable (a.Agree b name) :=
  decidable_of_iff (a.resolve name = b.resolve name ∧ a.contains name = b.contains name)
    ⟨fun h => ⟨h.1, h.2⟩, fun h => ⟨h.resolve, h.contains⟩⟩

variable {a b : Lookup}

theorem Declaration.resolve_agree {d : Declaration} (agree : a.Agree b d.name) :
    d.resolve a = d.resolve b := by
  rw [resolve, resolve, agree.resolve]

theorem Declaration.lacksValue_agree {d : Declaration} (agree : a.Agree b d.name) :
    d.lacksValue a = d.lacksValue b := by
  rw [lacksValue, lacksValue, agree.contains]

theorem Occurrence.image_agree {o : Occurrence} (agree : a.Agree b o.name) (template : Text) :
    o.image? template a = o.image? template b := by
  rw [image?, image?, Declaration.resolve_agree agree]

namespace Render

open Envelope

theorem Pass.step_agree {o : Occurrence} (agree : a.Agree b o.name) (reach : Reach) (pass : Pass) :
    step reach a pass o = step reach b pass o := by
  rw [step, step, Declaration.resolve_agree agree]

theorem Pass.run_agree {occurrences : List Occurrence}
    (agree : ∀ o ∈ occurrences, a.Agree b o.name) (reach : Reach) (pass : Pass) :
    occurrences.foldlM (step reach a) pass = occurrences.foldlM (step reach b) pass := by
  induction occurrences generalizing pass with
  | nil => rfl
  | cons o later ih =>
    obtain ⟨here, others⟩ := List.forall_mem_cons.mp agree
    rw [List.foldlM_cons, List.foldlM_cons, step_agree here]
    exact bind_congr fun next => ih others next

theorem missing_agree {occurrences : List Occurrence}
    (agree : ∀ o ∈ occurrences, a.Agree b o.name) :
    missing a occurrences = missing b occurrences := by
  have same : occurrences.filter (·.declaration.lacksValue a) =
      occurrences.filter (·.declaration.lacksValue b) :=
    List.filter_congr fun o member => Declaration.lacksValue_agree (agree o member)
  rw [missing, missing, same]

theorem render_agree {document : Document} (agree : ∀ o ∈ document.occurrences, a.Agree b o.name)
    (strict : Bool) : render strict document a = render strict document b := by
  rw [render, render, missing_agree agree, substitute, substitute, Pass.run_agree agree]

/-- What has no value with one of the names that a document uses has no influence on it. -/
theorem rendering_sees_own_variables {options : Options} {text : Text} {document : Document}
    (loaded : Document.load options text = .ok document) (strict : Bool) (a b : Lookup) :
    ((∀ name ∈ document.names, a.Agree b name) →
      render strict document a = render strict document b) ∧
    ∀ n, (∀ name ∈ document.names, name ≠ n → a.Agree b name) →
      ∀ one other, render strict document a = .ok one → render strict document b = .ok other →
        ∃ shown changed : Occurrence → Text,
          one = refill options.reach text (document.occurrences.map shown) ∧
          other = refill options.reach text (document.occurrences.map changed) ∧
          ∀ o ∈ document.occurrences, o.image? text a = some (shown o) ∧
            o.image? text b = some (changed o) ∧ (o.name ≠ n → shown o = changed o) := by
  constructor
  · intro agree
    exact render_agree (fun o member => agree o.name (Document.name_mem member)) strict
  · intro n agree one other first second
    obtain ⟨shown, shows, filled⟩ := render_images loaded first
    obtain ⟨changed, changes, refilled⟩ := render_images loaded second
    refine ⟨shown, changed, filled, refilled, fun o member => ?_⟩
    refine ⟨shows o member, changes o member, fun elsewhere => ?_⟩
    have same := Occurrence.image_agree (agree o.name (Document.name_mem member) elsewhere) text
    rw [shows o member, changes o member] at same
    exact Option.some.inj same

theorem longer_value_changes_its_own_place :
    let few := (Source.table [(['a'], .string ['s']), (['b'], .raw ['0'])]).lookup
    let many := (Source.chain [.resolver [(['b'], .raw ['0']), (['z'], .null)],
      .table [(['b'], .null), (['a'], .string ['s'])]]).lookup
    let long := (Source.table [(['a'], .string "é\x7d\x7d\n".toList), (['b'], .raw ['0'])]).lookup
    let rest := " $\x7b\x7bname: n, type: NUMBER, value: no\x7d\x7d0!".toList
    let one := "üs".toList ++ rest
    let other := "üé\x7d\x7d\n".toList ++ rest
    Document.load crowdedLine.options crowdedLine.text = .ok crowdedLine ∧
      ((∀ name ∈ crowdedLine.names, few.Agree many name) ∧
        render false crowdedLine few = render false crowdedLine many) ∧
      (∀ name ∈ crowdedLine.names, name ≠ ['a'] → few.Agree long name) ∧
      render false crowdedLine few = .ok one ∧ render false crowdedLine long = .ok other ∧
      ∃ shown changed : Occurrence → Text,
        one = refill .lazy crowdedLine.text (crowdedLine.occurrences.map shown) ∧
        other = refill .lazy crowdedLine.text (crowdedLine.occurrences.map changed) ∧
        ∀ o ∈ crowdedLine.occurrences, o.image? crowdedLine.text few = some (shown o) ∧
          o.image? crowdedLine.text long = some (changed o) ∧
          (o.name ≠ ['a'] → shown o = changed o) := by
  intro few many long rest one other
  have loaded : Document.load crowdedLine.options crowdedLine.text = .ok crowdedLine := by
    decide +kernel
  have alike : ∀ name ∈ crowdedLine.names, few.Agree many name := by decide +kernel
  have close : ∀ name ∈ crowdedLine.names, name ≠ ['a'] → few.Agree long name := by
    decide +kernel
  have first : render false crowdedLine few = .ok one := by decide +kernel
  have second : render false crowdedLine long = .ok other := by decide +kernel
  exact ⟨loaded, ⟨alike, (rendering_sees_own_variables loaded false few many).1 alike⟩, close,
    first, second,
    (rendering_sees_own_variables loaded false few long).2 ['a'] close one other first second⟩

end Render
end Stencil
