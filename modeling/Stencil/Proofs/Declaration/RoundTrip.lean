import Mathlib.Data.List.Infix
import Stencil.Declaration.Write
import Stencil.Proofs.Declaration.WellFormed
import Stencil.Proofs.Envelope.Search

/-
A well formed declaration reads back from its written form, and so does every declaration that was
read, unless a lenient reader dropped all its literals.
-/
namespace Stencil

def Property.write (property : Property) : Text := property.key ++ ':' :: ' ' :: property.value

theorem Property.ofText_write {property : Property} (identifier : property.key.isIdentifier)
    (inline : property.value.Inline) (pad : Text) (blank : ∀ c ∈ pad, isBlank c) :
    ofText? (pad ++ property.write) = some property := by
  obtain ⟨some, -, line, trimmed⟩ := inline
  have spaced : ∀ c ∈ pad ++ [] ++ [' '] ++ [], isBlank c := by
    intro c member
    simp only [List.append_nil, List.mem_append, List.mem_singleton] at member
    rcases member with front | rfl
    · exact blank c front
    · decide
  simpa [write] using ofText_padded identifier some line trimmed pad [] [' '] [] spaced

theorem Key.text_inj {a b : Key} : a.text = b.text ↔ a = b := by
  cases a <;> cases b <;> decide

theorem Key.text_isIdentifier (key : Key) : key.text.isIdentifier := by
  cases key <;> decide

namespace Property

theorem write_free {property : Property} {c : Char} (identifier : property.key.isIdentifier)
    (sign : c.isAlphanum = false ∧ c ≠ ':' ∧ c ≠ ' ') (free : c ∉ property.value) :
    c ∉ property.write := by
  have word := Text.identifier_free identifier sign.1
  simp [write, word, sign.2.1, sign.2.2, free]

theorem line_written {properties : List Property}
    (sound : ∀ property ∈ properties, property.key.isIdentifier ∧ property.value.Inline) :
    '\n' ∉ Text.join ", ".toList (properties.map write) := by
  apply Text.join_free (by decide)
  intro segment member
  obtain ⟨property, inside, rfl⟩ := List.mem_map.mp member
  exact write_free (sound property inside).1 (by decide) (sound property inside).2.2.2.1

/-- The comma that ends a property and the blank before the next keep to their segments, which are
parted further by the commas in them. -/
theorem split_listed (first : Property) (others : List Property) :
    (Text.join ", ".toList ((first :: others).map write)).split ',' =
      (first.write :: others.map fun property => [' '] ++ property.write).flatMap
        (Text.split ',') := by
  have separator : ", ".toList = ',' :: [' '] := rfl
  rw [separator, List.map_cons, Text.join_padded, List.map_map,
    Text.split_join_flatMap (List.cons_ne_nil _ _)]
  rfl

theorem split_written {first : Property} {others : List Property}
    (sound : ∀ property ∈ first :: others,
      property.key.isIdentifier ∧ property.value.Inline) :
    (Text.join ", ".toList ((first :: others).map write)).split ',' =
      first.write :: others.map fun property => [' '] ++ property.write := by
  have free (property : Property) (member : property ∈ first :: others) :
      ',' ∉ property.write :=
    write_free (sound property member).1 (by decide) (sound property member).2.2.1
  rw [split_listed]
  apply Text.flatMap_split_free
  intro segment member
  rcases List.mem_cons.mp member with rfl | later
  · exact free first List.mem_cons_self
  · obtain ⟨property, inside, rfl⟩ := List.mem_map.mp later
    simpa using free property (List.mem_cons_of_mem first inside)

theorem read_written {first : Property} {others : List Property}
    (sound : ∀ property ∈ first :: others,
      property.key.isIdentifier ∧ property.value.Inline) :
    Declaration.readProperties
        ((Text.join ", ".toList ((first :: others).map write)).split ',') =
      .ok (first :: others) := by
  rw [split_written sound, Declaration.readProperties_ok, List.map_cons, List.map_map,
    List.map_cons]
  have head := sound first List.mem_cons_self
  have single := ofText_write head.1 head.2 [] (by simp)
  rw [List.nil_append] at single
  rw [single]
  refine congrArg _ (List.map_congr_left fun property member => ?_)
  have here := sound property (List.mem_cons_of_mem first member)
  exact ofText_write here.1 here.2 [' '] (by simp; decide)

end Property

namespace Declaration

def properties (d : Declaration) : List Property :=
  ⟨Key.name.text, d.name⟩ :: ⟨Key.kind.text, d.kind.tag⟩ ::
    ((d.value.map fun value => ⟨Key.value.text, value.literal⟩).toList ++
      (d.fallback.map fun value => ⟨Key.fallback.text, value.literal⟩).toList)

theorem writeProperties_eq (d : Declaration) :
    d.writeProperties = d.properties.map Property.write := by
  cases d with
  | mk name kind value fallback => cases value <;> cases fallback <;> rfl

theorem properties_identifier (d : Declaration) :
    ∀ property ∈ d.properties, property.key.isIdentifier := by
  intro property member
  have key : ∃ key : Key, property.key = key.text := by
    simp only [properties, List.mem_cons, List.mem_append, Option.mem_toList,
      Option.map_eq_some_iff] at member
    rcases member with rfl | rfl | ⟨v, -, rfl⟩ | ⟨v, -, rfl⟩
    · exact ⟨.name, rfl⟩
    · exact ⟨.kind, rfl⟩
    · exact ⟨.value, rfl⟩
    · exact ⟨.fallback, rfl⟩
  obtain ⟨key, same⟩ := key
  rw [same]
  exact key.text_isIdentifier

theorem lookup_name (d : Declaration) :
    Property.lookup? Key.name.text d.properties = some d.name := by
  simp [properties, Property.lookup?]

theorem lookup_kind (d : Declaration) :
    Property.lookup? Key.kind.text d.properties = some d.kind.tag := by
  simp [properties, Property.lookup?, Key.text_inj]

theorem lookup_value (d : Declaration) :
    Property.lookup? Key.value.text d.properties = d.value.map Value.literal := by
  cases d with
  | mk name kind value fallback =>
    cases value <;> cases fallback <;> simp [properties, Property.lookup?, Key.text_inj]

theorem lookup_fallback (d : Declaration) :
    Property.lookup? Key.fallback.text d.properties = d.fallback.map Value.literal := by
  cases d with
  | mk name kind value fallback =>
    cases value <;> cases fallback <;> simp [properties, Property.lookup?, Key.text_inj]

theorem slice_marked (body : Text) :
    (openMark ++ body ++ closeMark).slice? openMark.bytes
      ((openMark ++ body ++ closeMark).bytes - closeMark.bytes) = some body := by
  have stop : (openMark ++ body ++ closeMark).bytes - closeMark.bytes =
      openMark.bytes + body.bytes := by
    simp only [Text.bytes_append]
    omega
  rw [stop]
  exact Text.slice_middle openMark body closeMark

theorem inner_of_marked {body : Text} (some : body ≠ []) (line : '\n' ∉ body) :
    inner? (openMark ++ body ++ closeMark) = .some body := by
  have envelope : Envelope.isIn (openMark ++ body ++ closeMark) := by
    refine Envelope.isIn_iff.mpr ⟨[], openMark ++ body ++ closeMark, rfl, body, [], ?_, some, line⟩
    rw [List.append_nil]
  rw [inner?, if_pos envelope]
  exact slice_marked body

theorem readName_unquoted {properties : List Property} {name : Text}
    (found : Property.lookup? Key.name.text properties = some name) (identifier : name.isIdentifier)
    (text : Text) : readName text properties = .ok name := by
  refine readName_ok.mpr ⟨name, found, ?_, identifier⟩
  rw [Text.identifier_not_quoted identifier]
  rfl

theorem readKind_tag {properties : List Property} {kind : Kind}
    (found : Property.lookup? Key.kind.text properties = some kind.tag) :
    readKind properties = .ok kind := by
  simp only [readKind, found, Kind.ofTag_tag]

theorem readEmbedded_written {kind : Kind} {value : Option Value}
    (embeddable : ∀ v ∈ value, v.kind = kind ∧ v.Embeddable) (lenient : Bool) (name : Text) :
    readEmbedded lenient name kind (value.map Value.literal) = .ok value := by
  cases value with
  | none => rfl
  | some v =>
    obtain ⟨rfl, sound⟩ := embeddable v rfl
    refine readEmbedded_ok.mpr ⟨(Value.read_literal sound).symm, Or.inr ?_⟩
    rintro l ⟨rfl⟩
    exact Value.accepts_literal sound

theorem properties_inline {d : Declaration} (readable : d.Readable) :
    ∀ property ∈ d.properties, property.value.Inline := by
  intro property member
  simp only [properties, List.mem_cons, List.mem_append, Option.mem_toList,
    Option.map_eq_some_iff] at member
  rcases member with rfl | rfl | ⟨v, present, rfl⟩ | ⟨v, present, rfl⟩
  · exact Text.identifier_inline readable.name
  · exact d.kind.tag_inline
  · exact Value.literal_inline (readable.value v present).2
  · exact Value.literal_inline (readable.fallback v present).2

theorem properties_sound {d : Declaration} (readable : d.Readable) :
    ∀ property ∈ d.properties, property.key.isIdentifier ∧ property.value.Inline :=
  fun property member =>
    ⟨d.properties_identifier property member, properties_inline readable property member⟩

def body (d : Declaration) : Text := Text.join ", ".toList d.writeProperties

theorem body_ne_nil (d : Declaration) : d.body ≠ [] :=
  Text.join_ne_nil (by simp [writeProperty]) _ _

theorem body_line {d : Declaration} (readable : d.Readable) : '\n' ∉ d.body := by
  rw [body, writeProperties_eq]
  exact Property.line_written (properties_sound readable)

theorem read_listed {first : Property} {others : List Property}
    (sound : ∀ property ∈ first :: others,
      property.key.isIdentifier ∧ property.value.Inline) (lenient : Bool) :
    let text :=
      openMark ++ Text.join ", ".toList ((first :: others).map Property.write) ++ closeMark
    read lenient text = ofProperties lenient text (first :: others) := by
  intro text
  have some : Text.join ", ".toList ((first :: others).map Property.write) ≠ [] :=
    Text.join_ne_nil (by simp [Property.write]) _ _
  have inner := inner_of_marked some (Property.line_written sound)
  have parsed := Property.read_written sound
  rw [read, inner]
  simp only [parsed]
  rfl

theorem read_write_eq {d : Declaration} (readable : d.Readable) (lenient : Bool) :
    read lenient d.write = ofProperties lenient d.write d.properties := by
  rw [write, writeProperties_eq]
  exact read_listed (properties_sound readable) lenient

theorem read_write {d : Declaration} (wellFormed : d.WellFormed) (lenient : Bool) :
    read lenient d.write = .ok d := by
  have readable := wellFormed.toReadable
  rw [read_write_eq readable]
  have named := readName_unquoted d.lookup_name readable.name d.write
  have typed := readKind_tag d.lookup_kind
  refine ofProperties_ok.mpr ⟨named, typed, ?_, ?_, ?_⟩
  · simpa [requireValue_ok, lookup_value, lookup_fallback] using wellFormed.offers
  · rw [lookup_value]
    exact readEmbedded_written readable.value lenient d.name
  · rw [lookup_fallback]
    exact readEmbedded_written readable.fallback lenient d.name

theorem read_write_without_value {d : Declaration} (readable : d.Readable)
    (value : d.value = none) (fallback : d.fallback = none) (lenient : Bool) :
    read lenient d.write = .error (.missingValue d.write) := by
  rw [read_write_eq readable, ofProperties, readName_unquoted d.lookup_name readable.name,
    readKind_tag d.lookup_kind,
    lookup_value, lookup_fallback, value, fallback]
  rfl

/-- Writing what was read and reading it again changes nothing. Only a declaration whose literals
were all dropped has lost what it must have. -/
theorem reread_of_read {lenient : Bool} {text : Text} {d : Declaration}
    (parsed : read lenient text = .ok d) :
    (d.value.isSome ∨ d.fallback.isSome →
      read false d.write = .ok d ∧
        ∀ again, read false d.write = .ok again → again.write = d.write) ∧
    (d.value = none ∧ d.fallback = none →
      lenient ∧ read false d.write = .error (.missingValue d.write)) := by
  have readable := read_readable parsed
  constructor
  · intro offers
    have same := read_write ⟨readable, offers⟩ false
    refine ⟨same, fun again reread => ?_⟩
    rw [same] at reread
    rw [Except.ok.inj reread]
  · rintro ⟨value, fallback⟩
    refine ⟨?_, read_write_without_value readable value fallback false⟩
    cases lenient with
    | true => rfl
    | false => simpa [value, fallback] using read_offers parsed

theorem unanchored_and_dropped_reread :
    let text := "???name: 'v', type: NUMBER, value: +007.50, z: $\x7b\x7bx\x7d\x7d??".toList
    let d : Declaration := ⟨['v'], .number, some (.number (.ofDecimal ⟨false, 75, 1⟩)), none⟩
    let bare := "$\x7b\x7bname: v, type: NUMBER, value: no\x7d\x7d".toList
    let dropped : Declaration := ⟨['v'], .number, none, none⟩
    (read false text = .ok d ∧ read false d.write = .ok d) ∧
      read true bare = .ok dropped ∧
      read false dropped.write = .error (.missingValue dropped.write) := by
  intro text d bare dropped
  have parsed : read false text = .ok d := by decide +kernel
  have lost : read true bare = .ok dropped := by decide +kernel
  exact ⟨⟨parsed, ((reread_of_read parsed).1 (Or.inl rfl)).1⟩, lost,
    ((reread_of_read lost).2 ⟨rfl, rfl⟩).2⟩

end Declaration
end Stencil
