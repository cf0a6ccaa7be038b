import Stencil.Proofs.Declaration.FirstFlaw
import Stencil.Proofs.Declaration.RoundTrip

/-
Nothing is escaped in a written declaration, so the commas and quotes in what is embedded make
further properties. They come too late: the name and the kind are written first, and of several
properties with one key the first counts.
-/
namespace Stencil.Declaration

open Property

theorem parts_written (key : Key) {value : Text} (inline : value.Inline) (pad : Text)
    (blank : ∀ c ∈ pad, isBlank c) :
    Parts (pad ++ Property.write ⟨key.text, value⟩) ⟨key.text, value⟩ :=
  ofText_parts (ofText_write key.text_isIdentifier inline pad blank)

theorem other_key {segment value : Text} {key other : Key}
    (parts : Parts segment ⟨key.text, value⟩) (different : key ≠ other) :
    ¬ HasKey other segment := by
  rintro ⟨content, again⟩
  have same := (Property.mk.inj (parts_unique parts again)).1
  exact different (Key.text_inj.mp same)

variable {d : Declaration} {segments : List Text}

theorem segments_written (identifier : d.name.isIdentifier) (cut : Segments d.write segments) :
    ∃ embedded, segments = Property.write ⟨Key.name.text, d.name⟩ ::
      ([' '] ++ Property.write ⟨Key.kind.text, d.kind.tag⟩) :: embedded := by
  obtain ⟨inner, slice, rfl⟩ := segments_slice.mp cut
  have body : inner = d.body := by
    rw [write, slice_marked] at slice
    exact (Option.some.inj slice).symm
  -- no commas in the first two segments, whatever the later ones hold
  have name : ',' ∉ Property.write ⟨Key.name.text, d.name⟩ :=
    write_free (Key.text_isIdentifier .name) (by decide) (Text.identifier_inline identifier).2.1
  have kind : ',' ∉ [' '] ++ Property.write ⟨Key.kind.text, d.kind.tag⟩ := by
    have plain : ',' ∉ Property.write ⟨Key.kind.text, d.kind.tag⟩ :=
      write_free (Key.text_isIdentifier .kind) (by decide) d.kind.tag_inline.2.1
    simpa using plain
  rw [body, Declaration.body, writeProperties_eq, properties, split_listed, List.map_cons,
    List.flatMap_cons, List.flatMap_cons, Text.split_of_not_mem name, Text.split_of_not_mem kind]
  exact ⟨_, rfl⟩

theorem first_written (identifier : d.name.isIdentifier) (cut : Segments d.write segments) :
    First segments .name d.name ∧ First segments .kind d.kind.tag := by
  obtain ⟨embedded, rfl⟩ := segments_written identifier cut
  have name := parts_written .name (Text.identifier_inline identifier) [] (by simp)
  have kind := parts_written .kind d.kind.tag_inline [' '] (by simp; decide)
  rw [List.nil_append] at name
  refine ⟨first_cons.mpr (Or.inl name), first_cons.mpr (Or.inr ⟨?_, ?_⟩)⟩
  · exact other_key name (by decide)
  · exact first_cons.mpr (Or.inl kind)

theorem named_written (identifier : d.name.isIdentifier) (cut : Segments d.write segments) :
    Named segments d.name :=
  named_iff.mpr ⟨d.name, (first_written identifier cut).1, by
    rw [Text.identifier_not_quoted identifier]
    rfl⟩

theorem typed_written (identifier : d.name.isIdentifier) (cut : Segments d.write segments) :
    Typed segments d.kind :=
  Or.inl (first_written identifier cut).2

/-- A fault that finds nothing wrong with the name and the kind, and names no others. -/
def Fault.Respects (d : Declaration) : Fault → Prop
  | .missingName _ | .invalidName _ | .unknownKind _ => False
  | .kindMismatch name expected _ => name = d.name ∧ expected = d.kind
  | .notPlaceholder _ | .malformedProperty _ | .missingValue _ => True

theorem flaw_respects {lenient : Bool} {fault : Fault} (identifier : d.name.isIdentifier)
    (flaw : Flaw lenient d.write fault) : fault.Respects d := by
  cases flaw with
  | unmarked bare => trivial
  | malformed cut first => trivial
  | unnamed cut lacks => exact lacks_iff.mp lacks _ (first_written identifier cut).1
  | misnamed cut named other =>
    rw [named_unique named (named_written identifier cut)] at other
    exact other identifier
  | untyped cut first other =>
    exact other d.kind (first_unique first (first_written identifier cut).2)
  | empty cut value fallback => trivial
  | mismatched strict cut named typed other =>
    exact ⟨named_unique named (named_written identifier cut),
      typed_unique typed (typed_written identifier cut)⟩

/-- Whatever the values are, what comes back is a declaration of the same variable and kind or a
fault, and no fault is about another variable or kind. -/
theorem embedded_text_forges_no_identity (identifier : d.name.isIdentifier) (lenient : Bool) :
    (∀ again, read lenient d.write = .ok again → again.name = d.name ∧ again.kind = d.kind) ∧
    ∀ fault, read lenient d.write = .error fault → fault.Respects d := by
  constructor
  · intro again made
    obtain ⟨segments, cut, named, typed, -, -⟩ := (read_means made).1
    exact ⟨named_unique named (named_written identifier cut),
      typed_unique typed (typed_written identifier cut)⟩
  · intro fault failed
    exact flaw_respects identifier (read_error failed).1

theorem injected_properties_come_too_late :
    let text := "', name: other, type: NULL, value: 'x".toList
    let d : Declaration := ⟨['a'], .unknown, some (.string text), some (.raw "\x7d\x7d\n".toList)⟩
    let again : Declaration :=
      ⟨['a'], .unknown, some (.raw "''".toList), some (.raw "\x7d\x7d".toList)⟩
    let typed : Declaration := ⟨['a'], .number, some (.string text), none⟩
    let fault := Fault.kindMismatch ['a'] .number .string
    (d.name.isIdentifier ∧ read false d.write = .ok again ∧
      again.name = d.name ∧ again.kind = d.kind) ∧
    typed.name.isIdentifier ∧ read false typed.write = .error fault ∧ fault.Respects typed := by
  intro text d again typed fault
  have identifier : d.name.isIdentifier := by decide
  have named : typed.name.isIdentifier := by decide
  have made : read false d.write = .ok again := by decide +kernel
  have failed : read false typed.write = .error fault := by decide +kernel
  exact ⟨⟨identifier, made, (embedded_text_forges_no_identity identifier false).1 again made⟩,
    named, failed, (embedded_text_forges_no_identity named false).2 fault failed⟩

end Stencil.Declaration
