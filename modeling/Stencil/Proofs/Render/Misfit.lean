import Stencil.Proofs.Document.Loaded
import Stencil.Proofs.Render.Images

/-
The only thing that can be wrong when rendering is not strict: the source gives a variable a value
of another kind than the placeholder declares. What is embedded was of the declared kind when it was
read. Otherwise every occurrence that has a value is replaced by the text of that value.
-/
namespace Stencil.Render

open Envelope

def Misfit (source : Lookup) (o : Occurrence) (value : Value) : Prop :=
  source.resolve o.name = some value ∧ o.declaration.kind ≠ .unknown ∧
    value.kind ≠ o.declaration.kind

theorem not_admits_iff {d : Declaration} {value : Value} :
    ¬ d.admits value ↔ d.kind ≠ .unknown ∧ value.kind ≠ d.kind := by
  simp [Declaration.admits, Kind.admits]

theorem embedded_admitted {d : Declaration} (readable : d.Readable) {value : Value}
    (offered : (d.value <|> d.fallback) = some value) : d.admits value := by
  have same : value.kind = d.kind := by
    cases own : d.value with
    | some v =>
      rw [own] at offered
      obtain rfl := Option.some.inj offered
      exact (readable.value v own).1
    | none =>
      rw [own] at offered
      exact (readable.fallback value offered).1
  simp [Declaration.admits, Kind.admits, same]

theorem misfit_of_given {source : Lookup} {o : Occurrence} {value other : Value}
    (given : source.resolve o.name = some value) :
    Misfit source o other ↔ other = value ∧ ¬ o.declaration.admits value := by
  rw [Misfit, given, Option.some.injEq, @eq_comm _ value, not_admits_iff]
  exact and_congr_right fun same => by rw [same]

theorem clash_iff {source : Lookup} {o : Occurrence} (readable : o.declaration.Readable)
    {fault : Fault} :
    clash? source o = some fault ↔
      ∃ value, Misfit source o value ∧ fault = .kindMismatch o.name o.declaration.kind value := by
  rw [clash?, Declaration.resolve]
  cases given : source.resolve o.declaration.name with
  | some value =>
    simp only [misfit_of_given given]
    by_cases admitted : o.declaration.admits value
    · simp [admitted]
    · simp [admitted, eq_comm]
  | none =>
    have absent (value : Value) : ¬ Misfit source o value := by
      simp [Misfit, Occurrence.name, given]
    cases offered : (o.declaration.value <|> o.declaration.fallback) with
    | none => simp [absent]
    | some value => simp [absent, embedded_admitted readable offered]

theorem resolve_isSome (source : Lookup) {d : Declaration}
    (offers : d.value.isSome ∨ d.fallback.isSome) : (d.resolve source).isSome := by
  rw [Declaration.resolve]
  cases source.resolve d.name with
  | some value => rfl
  | none => simpa [Option.isSome_or] using offers

section Loaded

variable {options : Options} {text : Text} {document : Document} {source : Lookup}

theorem render_error_clash (loaded : Document.load options text = .ok document) {fault : Fault} :
    render false document source = .error fault ↔
      document.occurrences.findSome? (clash? source) = some fault := by
  rw [render_loaded loaded, outcome_eq_error]

theorem render_first_misfit (loaded : Document.load options text = .ok document) {fault : Fault}
    (failed : render false document source = .error fault) :
    ∃ o ∈ document.occurrences, ∃ value, Misfit source o value ∧
      fault = .kindMismatch o.name o.declaration.kind value ∧
      ∀ p ∈ document.occurrences, ∀ other, Misfit source p other → p = o ∨ o.offset < p.offset := by
  have readable {o : Occurrence} (member : o ∈ document.occurrences) :=
    Document.occurrence_readable loaded member
  have ascending := Document.occurrences_ascending loaded
  rw [render_error_clash loaded, List.findSome?_eq_some_iff] at failed
  obtain ⟨earlier, o, later, split, clash, before⟩ := failed
  rw [split] at ascending readable ⊢
  have member : o ∈ earlier ++ o :: later := by simp
  obtain ⟨value, misfit, same⟩ := (clash_iff (readable member)).mp clash
  refine ⟨o, member, value, misfit, same, ?_⟩
  intro p within other wrong
  rcases List.mem_append.mp within with front | back
  · have clash := (clash_iff (readable within)).mpr ⟨other, wrong, rfl⟩
    rw [before p front] at clash
    cases clash
  · rcases List.mem_cons.mp back with here | behind
    · exact Or.inl here
    · obtain ⟨-, rest, -⟩ := List.pairwise_append.mp ascending
      exact Or.inr ((List.pairwise_cons.mp rest).1 p behind)

theorem render_error_of_misfit (loaded : Document.load options text = .ok document)
    {o : Occurrence} (member : o ∈ document.occurrences) {value : Value}
    (misfit : Misfit source o value) : ∃ fault, render false document source = .error fault := by
  have clash := (clash_iff (Document.occurrence_readable loaded member)).mpr ⟨value, misfit, rfl⟩
  have some : (document.occurrences.findSome? (clash? source)).isSome :=
    List.findSome?_isSome_iff.mpr ⟨o, member, Option.isSome_of_eq_some clash⟩
  obtain ⟨fault, found⟩ := Option.isSome_iff_exists.mp some
  exact ⟨fault, (render_error_clash loaded).mpr found⟩

theorem render_refills (loaded : Document.load options text = .ok document) {strict : Bool}
    {output : Text} (rendered : render strict document source = .ok output)
    {P : Occurrence → Value → Prop} (complete : ∀ o ∈ document.occurrences,
      ∃ value, o.declaration.resolve source = some value ∧ P o value) :
    ∃ given : Occurrence → Value, (∀ o ∈ document.occurrences, P o (given o)) ∧
      output = refill options.reach text (document.occurrences.map fun o => (given o).text) := by
  obtain ⟨shown, shows, filled⟩ := render_images loaded rendered
  have choice : ∀ o ∈ document.occurrences,
      P o ((o.declaration.resolve source).getD .null) ∧
        shown o = ((o.declaration.resolve source).getD .null).text := by
    intro o member
    obtain ⟨value, found, holds⟩ := complete o member
    have image := shows o member
    rw [Occurrence.image?, found] at image
    rw [found]
    exact ⟨holds, (Option.some.inj image).symm⟩
  refine ⟨fun o => (o.declaration.resolve source).getD .null,
    fun o member => (choice o member).1, ?_⟩
  rw [filled, List.map_congr_left fun o member => (choice o member).2]

/-- Only the source can be at fault, and of the occurrences it gives a wrong value the first is. -/
theorem rendering_fails_at_first_misfit (loaded : Document.load options text = .ok document)
    (source : Lookup) :
    ((∃ fault, render false document source = .error fault) ↔
      ∃ o ∈ document.occurrences, ∃ value, Misfit source o value) ∧
    (∀ fault, render false document source = .error fault →
      ∃ o ∈ document.occurrences, ∃ value, Misfit source o value ∧
        fault = .kindMismatch o.name o.declaration.kind value ∧
        ∀ p ∈ document.occurrences, ∀ other, Misfit source p other →
          p = o ∨ o.offset < p.offset) ∧
    ((∀ name ∈ document.names, source.resolve name = none) →
      ∃ output, render false document source = .ok output) ∧
    (options.lenient = false → ∀ strict output, render strict document source = .ok output →
      ∃ given : Occurrence → Value,
        (∀ o ∈ document.occurrences, o.declaration.resolve source = some (given o)) ∧
          output = refill options.reach text
            (document.occurrences.map fun o => (given o).text)) := by
  have fails : (∃ fault, render false document source = .error fault) ↔
      ∃ o ∈ document.occurrences, ∃ value, Misfit source o value := by
    constructor
    · intro failed
      obtain ⟨fault, failed⟩ := failed
      obtain ⟨o, member, value, misfit, -⟩ := render_first_misfit loaded failed
      exact ⟨o, member, value, misfit⟩
    · intro wrong
      obtain ⟨o, member, value, misfit⟩ := wrong
      exact render_error_of_misfit loaded member misfit
  refine ⟨fails, fun fault => render_first_misfit loaded, ?_, ?_⟩
  · intro absent
    cases outcome : render false document source with
    | ok output => exact ⟨output, rfl⟩
    | error fault =>
      obtain ⟨o, member, value, given, -⟩ := fails.mp ⟨fault, outcome⟩
      have named : o.name ∈ document.names := by
        rw [Document.names, List.mem_eraseDups]
        exact List.mem_map_of_mem member
      rw [absent o.name named] at given
      cases given
  · intro literals strict output rendered
    let given (o : Occurrence) (value : Value) := o.declaration.resolve source = some value
    apply render_refills (P := given) loaded rendered
    intro o member
    have offers := Document.occurrence_offers loaded literals member
    obtain ⟨value, found⟩ := Option.isSome_iff_exists.mp (resolve_isSome source offers)
    exact ⟨value, found, found⟩

end Loaded

theorem first_of_two_misfits :
    let document : Document := ⟨"$\x7b\x7bname: a, value: 1\x7d\x7d".toList ++
        "$\x7b\x7bname: n, type: NUMBER, value: 2\x7d\x7d\n".toList ++
        "$\x7b\x7bname: s, type: STRING, defaultValue: 'x'\x7d\x7d".toList,
      [⟨⟨['a'], .unknown, some (.raw ['1']), none⟩, 0, 22⟩,
        ⟨⟨['n'], .number, some (.number (.ofDecimal ⟨false, 2, 0⟩)), none⟩, 22, 36⟩,
        ⟨⟨['s'], .string, none, some (.string ['x'])⟩, 59, 45⟩], ⟨.lazy, false⟩⟩
    let source := (Source.table [(['a'], .null), (['n'], .boolean true), (['s'], .null)]).lookup
    let none := (Source.table []).lookup
    let fault := Fault.kindMismatch ['n'] .number (.boolean true)
    Document.load ⟨.lazy, false⟩ document.text = .ok document ∧
      render false document source = .error fault ∧
      (∃ o ∈ document.occurrences, ∃ value, Misfit source o value ∧
        fault = .kindMismatch o.name o.declaration.kind value ∧
        ∀ p ∈ document.occurrences, ∀ other, Misfit source p other →
          p = o ∨ o.offset < p.offset) ∧
      (∃ output, render false document none = .ok output) ∧
      ∃ given : Occurrence → Value,
        (∀ o ∈ document.occurrences, o.declaration.resolve none = some (given o)) ∧
          "12\nx".toList =
            refill .lazy document.text (document.occurrences.map fun o => (given o).text) := by
  intro document source none fault
  have loaded : Document.load ⟨.lazy, false⟩ document.text = .ok document := by decide +kernel
  have failed : render false document source = .error fault := by decide +kernel
  have rendered : render false document none = .ok "12\nx".toList := by decide +kernel
  obtain ⟨-, first, -, -⟩ := rendering_fails_at_first_misfit loaded source
  obtain ⟨-, -, total, filled⟩ := rendering_fails_at_first_misfit loaded none
  exact ⟨loaded, failed, first fault failed, total fun _ _ => rfl,
    filled rfl false _ rendered⟩

end Stencil.Render
