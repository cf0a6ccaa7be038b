import Stencil.Declaration.Read
import Stencil.Proofs.Literal.Kinds
import Stencil.Proofs.Outcome

/-
Reading a declaration yields one with an identifier for a name and with embedded values of its kind
that can be embedded again. Unless literals were dropped it also offers a value.
-/
namespace Stencil.Declaration

structure Readable (d : Declaration) : Prop where
  name : d.name.isIdentifier
  value : ∀ v ∈ d.value, v.kind = d.kind ∧ v.Embeddable
  fallback : ∀ v ∈ d.fallback, v.kind = d.kind ∧ v.Embeddable

structure WellFormed (d : Declaration) : Prop extends Readable d where
  offers : d.value.isSome ∨ d.fallback.isSome

instance (d : Declaration) : Decidable d.Readable :=
  decidable_of_iff (d.name.isIdentifier ∧ (∀ v ∈ d.value, v.kind = d.kind ∧ v.Embeddable) ∧
      ∀ v ∈ d.fallback, v.kind = d.kind ∧ v.Embeddable)
    ⟨fun h => ⟨h.1, h.2.1, h.2.2⟩, fun h => ⟨h.name, h.value, h.fallback⟩⟩

instance (d : Declaration) : Decidable d.WellFormed :=
  decidable_of_iff (d.Readable ∧ (d.value.isSome ∨ d.fallback.isSome))
    ⟨fun h => ⟨h.1, h.2⟩, fun h => ⟨h.toReadable, h.offers⟩⟩

theorem readProperties_ok {segments : List Text} {properties : List Property} :
    readProperties segments = .ok properties ↔
      segments.map Property.ofText? = properties.map some := by
  induction segments generalizing properties with
  | nil => simp [readProperties]
  | cons segment others ih =>
    rw [readProperties, bind_eq_ok, List.map_cons]
    constructor
    · rintro ⟨property, first, rest⟩
      obtain ⟨later, remaining, same⟩ := bind_eq_ok.mp rest
      obtain rfl := Except.ok.inj same
      rw [List.map_cons, ih.mp remaining]
      rw [readProperty] at first
      split at first
      · cases first
      · next found =>
        obtain rfl := Except.ok.inj first
        rw [found]
    · intro mapped
      cases properties with
      | nil => simp at mapped
      | cons property later =>
        obtain ⟨first, remaining⟩ := List.cons.inj mapped
        refine ⟨property, by rw [readProperty, first], ?_⟩
        exact bind_eq_ok.mpr ⟨later, ih.mpr remaining, rfl⟩

theorem read_ok {lenient : Bool} {text : Text} {d : Declaration} :
    read lenient text = .ok d ↔ ∃ inner properties, inner? text = some inner ∧
      readProperties (inner.split ',') = .ok properties ∧
      ofProperties lenient text properties = .ok d := by
  rw [read]
  cases inner? text with
  | none => simp
  | some inner => simp [bind_eq_ok]

theorem readLiteral_ok {lenient : Bool} {name literal : Text} {kind : Kind}
    {value : Option Value} :
    readLiteral lenient name kind literal = .ok value ↔
      value = kind.read? literal ∧ (lenient ∨ kind.accepts literal) := by
  rw [readLiteral, Verdict.of_valid]
  cases accepted : kind.accepts literal with
  | true => simp [@eq_comm _ value]
  | false =>
    have refused : kind.read? literal = none := by
      rwa [Kind.accepts_eq_read, Option.isSome_eq_false_iff, Option.isNone_iff_eq_none]
        at accepted
    cases lenient with
    | true => simp [refused, @eq_comm _ value]
    | false => simp

theorem readEmbedded_ok {lenient : Bool} {name : Text} {kind : Kind} {literal : Option Text}
    {value : Option Value} :
    readEmbedded lenient name kind literal = .ok value ↔
      value = literal.bind kind.read? ∧ (lenient ∨ ∀ l ∈ literal, kind.accepts l) := by
  cases literal with
  | none => simp [readEmbedded, @eq_comm _ value]
  | some l => simp [readEmbedded, readLiteral_ok]

theorem readName_ok {text name : Text} {properties : List Property} :
    readName text properties = .ok name ↔ ∃ quoted,
      Property.lookup? Key.name.text properties = some quoted ∧
      name = quoted.unquote?.getD quoted ∧ name.isIdentifier := by
  rw [readName]
  cases Property.lookup? Key.name.text properties with
  | none => simp
  | some quoted =>
    by_cases identifier : (quoted.unquote?.getD quoted).isIdentifier
    · simp only [identifier, ↓reduceIte, Except.ok.injEq, Option.some.injEq]
      constructor
      · rintro rfl
        exact ⟨quoted, rfl, rfl, identifier⟩
      · rintro ⟨_, rfl, rfl, -⟩
        rfl
    · simp only [identifier, Bool.false_eq_true, ↓reduceIte, reduceCtorEq, Option.some.injEq,
        false_iff]
      rintro ⟨_, rfl, rfl, accepted⟩
      exact identifier accepted

theorem requireValue_ok {text : Text} {value fallback : Option Text} :
    requireValue text value fallback = .ok () ↔ value.isSome ∨ fallback.isSome := by
  cases value <;> cases fallback <;> simp [requireValue]

theorem ofProperties_ok {lenient : Bool} {text : Text} {properties : List Property}
    {d : Declaration} :
    ofProperties lenient text properties = .ok d ↔
      readName text properties = .ok d.name ∧ readKind properties = .ok d.kind ∧
      requireValue text (Property.lookup? Key.value.text properties)
        (Property.lookup? Key.fallback.text properties) = .ok () ∧
      readEmbedded lenient d.name d.kind (Property.lookup? Key.value.text properties) =
        .ok d.value ∧
      readEmbedded lenient d.name d.kind (Property.lookup? Key.fallback.text properties) =
        .ok d.fallback := by
  simp only [ofProperties, bind_eq_ok]
  constructor
  · rintro ⟨name, named, kind, typed, ⟨⟩, offered, value, first, fallback, second, made⟩
    obtain rfl := Except.ok.inj made
    exact ⟨named, typed, offered, first, second⟩
  · rintro ⟨named, typed, offered, first, second⟩
    exact ⟨d.name, named, d.kind, typed, (), offered, d.value, first, d.fallback, second, rfl⟩

theorem readProperties_inline {inner : Text} {properties : List Property}
    (parsed : readProperties (inner.split ',') = .ok properties) :
    ∀ property ∈ properties, property.value.Inline := by
  intro property member
  have mapped : some property ∈ (inner.split ',').map Property.ofText? := by
    rw [readProperties_ok.mp parsed]
    exact List.mem_map_of_mem member
  obtain ⟨segment, within, found⟩ := List.mem_map.mp mapped
  obtain ⟨left, right, rfl, -, rfl, -, some, line⟩ := Property.ofText_eq_some.mp found
  have comma := Text.split_free within
  refine ⟨some, fun inside => comma ?_, line, Text.trim_trimmed right⟩
  have outside := Text.trim_subset right inside
  simp [outside]

theorem embedded_of_literal {kind : Kind} {literal : Option Text} {value : Value}
    (inline : ∀ l ∈ literal, l.Inline) (read : value ∈ literal.bind kind.read?) :
    value.kind = kind ∧ value.Embeddable := by
  obtain ⟨l, present, found⟩ := Option.bind_eq_some_iff.mp read
  exact Value.read_embeddable (inline l present) found

theorem read_readable {lenient : Bool} {text : Text} {d : Declaration}
    (parsed : read lenient text = .ok d) : d.Readable := by
  obtain ⟨inner, properties, -, segments, made⟩ := read_ok.mp parsed
  obtain ⟨named, -, -, value, fallback⟩ := ofProperties_ok.mp made
  obtain ⟨quoted, -, -, identifier⟩ := readName_ok.mp named
  have inline (key : Text) : ∀ l ∈ Property.lookup? key properties, l.Inline := fun l found =>
    readProperties_inline segments _ (Property.lookup_mem found)
  refine ⟨identifier, ?_, ?_⟩
  · rw [(readEmbedded_ok.mp value).1]
    exact fun v => embedded_of_literal (inline _)
  · rw [(readEmbedded_ok.mp fallback).1]
    exact fun v => embedded_of_literal (inline _)

theorem kept_of_accepted {kind : Kind} {literal : Option Text}
    (accepted : ∀ l ∈ literal, kind.accepts l) (present : literal.isSome) :
    (literal.bind kind.read?).isSome := by
  obtain ⟨l, rfl⟩ := Option.isSome_iff_exists.mp present
  rw [Option.bind_some, ← Kind.accepts_eq_read]
  exact accepted l rfl

/-- Only a lenient reader can leave a declaration without any value. -/
theorem read_offers {text : Text} {d : Declaration} (parsed : read false text = .ok d) :
    d.value.isSome ∨ d.fallback.isSome := by
  obtain ⟨inner, properties, -, -, made⟩ := read_ok.mp parsed
  obtain ⟨-, -, offered, value, fallback⟩ := ofProperties_ok.mp made
  obtain ⟨first, valid⟩ := readEmbedded_ok.mp value
  obtain ⟨second, sound⟩ := readEmbedded_ok.mp fallback
  simp only [Bool.false_eq_true, false_or] at valid sound
  rw [first, second]
  rcases requireValue_ok.mp offered with present | present
  · exact Or.inl (kept_of_accepted valid present)
  · exact Or.inr (kept_of_accepted sound present)

end Stencil.Declaration
