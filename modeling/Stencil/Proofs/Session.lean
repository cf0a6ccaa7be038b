import Stencil.Proofs.Render.Filled
import Stencil.Session

/-
The document of a session is always one that was loaded: its occurrences are what a scan of its text
finds, and rendering it finds each of them again. An operation that fails leaves it alone.
-/
namespace Stencil

open Envelope

/-- What an operation asks to be loaded, and with which options. -/
def Document.Operation.request (document : Document) :
    Document.Operation → Except Document.Fault (Options × Text)
  | .load text => .ok (document.options, text)
  | .replace options text => .ok (options, text)
  | .fromText none => .error .noText
  | .fromText (some text) => .ok ({}, text)
  | .rerender strict source =>
    match render strict document source with
    | .error fault => .error (.render fault)
    | .ok output => .ok (document.options, output)

namespace Document

theorem apply_request (document : Document) (operation : Operation) :
    document.apply operation = operation.request document >>= fun asked =>
      (Document.load asked.1 asked.2).mapError .scan := by
  cases operation with
  | load text => rfl
  | replace options text => rfl
  | fromText text => cases text <;> rfl
  | rerender strict source =>
    rw [apply, Operation.request]
    cases render strict document source <;> rfl

theorem step_succeeds {document next : Document} {operation : Operation} :
    document.step operation = (next, none) ↔ ∃ options text,
      operation.request document = .ok (options, text) ∧ load options text = .ok next := by
  have applied : document.step operation = (next, none) ↔ document.apply operation = .ok next := by
    rw [step]
    cases document.apply operation <;> simp
  rw [applied, apply_request, bind_eq_ok]
  simp only [mapError_eq_ok, Prod.exists]

theorem step_fails {document : Document} {operation : Operation} {fault : Fault}
    (failed : (document.step operation).2 = some fault) : (document.step operation).1 = document := by
  rw [step] at failed ⊢
  cases applied : document.apply operation with
  | error fault => rfl
  | ok next =>
    rw [applied] at failed
    cases failed

/-- The text and the occurrences belong together. -/
def Consistent (document : Document) : Prop :=
  scan document.options document.text = .ok document.occurrences

theorem load_consistent {options : Options} {text : Text} {document : Document}
    (loaded : load options text = .ok document) : document.Consistent := by
  obtain ⟨scanned, rfl, rfl⟩ := load_eq_ok.mp loaded
  exact scanned

theorem step_consistent {document : Document} (consistent : document.Consistent)
    (operation : Operation) : (document.step operation).1.Consistent := by
  cases result : (document.step operation).2 with
  | some fault => rwa [step_fails result]
  | none =>
    obtain ⟨options, text, -, loaded⟩ := step_succeeds.mp (Prod.ext rfl result)
    exact load_consistent loaded

theorem empty_consistent (options : Options) : (empty options).Consistent := by
  rw [Consistent, scan_ok, empty, cut_of_none rfl]
  rfl

theorem run_consistent (operations : List Operation) {document : Document}
    (consistent : document.Consistent) : (document.run operations).Consistent := by
  induction operations generalizing document with
  | nil => exact consistent
  | cons operation later ih => exact ih (step_consistent consistent operation)

theorem findIn_own {document : Document} (consistent : document.Consistent) :
    document.findIn document.text = .ok document.occurrences := by
  have known : document.occurrences.filter (fun o => document.names.contains o.name) =
      document.occurrences := by
    refine List.filter_eq_self.mpr fun o member => ?_
    rw [List.contains_iff_mem]
    exact name_mem member
  rw [findIn, consistent, Except.map, known]

theorem occurrence_stands {document : Document} (consistent : document.Consistent)
    {o : Occurrence} (member : o ∈ document.occurrences) :
    StandsAt document.options.reach document.text o.offset o.length := by
  obtain ⟨earlier, later, split⟩ := List.append_of_mem member
  have located := scan_ok.mp consistent
  rw [split] at located
  obtain ⟨before, piece, behind, parted, -, -, offset, length⟩ := Scan.occurrences_piece located
  rw [offset, length, Nat.zero_add]
  exact piece_stands parted

theorem loop_stands {document : Document} (consistent : document.Consistent) {source : Lookup}
    {earlier later : List Occurrence} {o : Occurrence} {pass : Render.Pass}
    (split : document.occurrences = earlier ++ o :: later)
    (run : earlier.foldlM (Render.Pass.step document.options.reach source) ⟨document.text, 0⟩ =
      .ok pass) :
    StandsAt document.options.reach pass.working (pass.place o) o.length := by
  have located := scan_ok.mp consistent
  rw [split] at located
  rw [← assemble_cut document.options.reach document.text] at run
  have anchored := cut_anchored document.options.reach document.text
  obtain ⟨front, done, gap, envelope, after, rfl, offset, length, found⟩ :=
    Render.loop_meets anchored located run
  exact Render.midway_stands offset length found

theorem session_stays_consistent (operations : List Operation) :
    let document := run {} operations
    scan document.options document.text = .ok document.occurrences ∧
      (∀ operation fault, (document.step operation).2 = some fault →
        (document.step operation).1 = document) ∧
      (∀ operation next, document.step operation = (next, none) ↔ ∃ options text,
        operation.request document = .ok (options, text) ∧ load options text = .ok next) ∧
      document.findIn document.text = .ok document.occurrences ∧
      (∀ o ∈ document.occurrences,
        StandsAt document.options.reach document.text o.offset o.length) ∧
      ∀ source earlier o later pass, document.occurrences = earlier ++ o :: later →
        earlier.foldlM (Render.Pass.step document.options.reach source) ⟨document.text, 0⟩ =
          .ok pass →
        StandsAt document.options.reach pass.working (pass.place o) o.length := by
  intro document
  have consistent : document.Consistent := run_consistent operations (empty_consistent {})
  refine ⟨consistent, fun _ _ => step_fails, fun _ _ => step_succeeds, findIn_own consistent,
    fun _ => occurrence_stands consistent, ?_⟩
  intro source earlier o later pass split run
  exact loop_stands consistent split run

theorem failed_reload_keeps_the_document :
    let line := "$\x7b\x7bname: a, value: 1\x7d\x7d$\x7b\x7bname: b, value: 2\x7d\x7d".toList
    let broken : Text := "$\x7b\x7bname\x7d\x7d".toList
    let source := (Source.table [(['a'], .raw broken)]).lookup
    let operations : List Operation :=
      [.load broken, .fromText none, .replace ⟨.lazy, false⟩ line, .rerender true source,
        .rerender false source]
    let document : Document := ⟨line,
      [⟨⟨['a'], .unknown, some (.raw ['1']), none⟩, 0, 22⟩,
        ⟨⟨['b'], .unknown, some (.raw ['2']), none⟩, 22, 22⟩], ⟨.lazy, false⟩⟩
    run {} operations = document ∧ render false document source = .ok (broken ++ ['2']) ∧
      (document.step (.rerender false source)).1 = document ∧
      document.findIn document.text = .ok document.occurrences ∧
      StandsAt .lazy (broken ++ document.text.drop 22) broken.bytes 22 := by
  intro line broken source operations document
  have reached : run {} operations = document := by decide +kernel
  have rendered : render false document source = .ok (broken ++ ['2']) := by decide +kernel
  have failed : (document.step (.rerender false source)).2 =
      some (.scan ⟨⟨1, 1, 0⟩, .malformedProperty "name".toList⟩) := by decide +kernel
  have consistent := session_stays_consistent operations
  rw [reached] at consistent
  obtain ⟨-, kept, -, own, -, met⟩ := consistent
  refine ⟨reached, rendered, kept _ _ failed, own, ?_⟩
  exact met source [⟨⟨['a'], .unknown, some (.raw ['1']), none⟩, 0, 22⟩] _ []
    ⟨broken ++ document.text.drop 22, -13⟩ rfl (by decide +kernel)

end Document
end Stencil
