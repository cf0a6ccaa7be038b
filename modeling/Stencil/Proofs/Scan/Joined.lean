import Stencil.Proofs.Declaration.FirstFlaw
import Stencil.Proofs.Declaration.RoundTrip
import Stencil.Proofs.Envelope.Recognition
import Stencil.Proofs.Position
import Stencil.Proofs.Scan.Occurrences

/-
Two written declarations on one line are one greedy envelope, and that is read as one list of
properties: those of the first, whose last literal swallows everything up to the name of the second,
and the others of the second. What is swallowed is no literal of a concrete kind, so a first
declaration of such a kind is never read with properties of the second.
-/
namespace Stencil

theorem Kind.refuses_brace {kind : Kind} {literal : Text} (typed : kind ≠ .unknown)
    (trimmed : literal.Trimmed) (brace : '}' ∈ literal)
    (unquoted : literal.getLast? ≠ some '\'') : ¬ kind.accepts literal := by
  intro accepted
  cases kind with
  | string =>
    rw [accepts, Text.trim_of_trimmed trimmed] at accepted
    obtain ⟨inner, quoted, -⟩ := isQuoted_iff.mp accepted
    apply unquoted
    rw [Text.unquote_eq_some.mp quoted, ← List.cons_append, List.getLast?_concat]
  | number =>
    have body := Text.trim_of_trimmed trimmed
    have characters := (number_characters accepted).2 '}' (by rwa [body])
    revert characters
    decide
  | boolean =>
    rw [accepts, Text.trim_of_trimmed trimmed, Bool.or_eq_true, beq_iff_eq, beq_iff_eq] at accepted
    rcases accepted with rfl | rfl
    · exact absurd brace (by decide)
    · exact absurd brace (by decide)
  | null =>
    rw [accepts, Text.trim_of_trimmed trimmed, beq_iff_eq] at accepted
    subst accepted
    exact absurd brace (by decide)
  | unknown => exact typed rfl

namespace Declaration

open Property

theorem ofProperties_mismatch {text name literal : Text} {kind : Kind}
    {properties : List Property} {key : Key} (named : readName text properties = .ok name)
    (typed : readKind properties = .ok kind) (embeds : key = .value ∨ key = .fallback)
    (found : lookup? key.text properties = some literal) (refused : ¬ kind.accepts literal) :
    ∃ l, ¬ kind.accepts l ∧
      ofProperties false text properties = .error (.kindMismatch name kind (Kind.detect l)) := by
  have offered : requireValue text (lookup? Key.value.text properties)
      (lookup? Key.fallback.text properties) = .ok () := by
    apply requireValue_ok.mpr
    rcases embeds with rfl | rfl
    · exact Or.inl (Option.isSome_of_eq_some found)
    · exact Or.inr (Option.isSome_of_eq_some found)
  cases outcome : ofProperties false text properties with
  | ok d =>
    obtain ⟨-, again, -, value, fallback⟩ := ofProperties_ok.mp outcome
    obtain rfl := Except.ok.inj (typed.symm.trans again)
    have accepted : d.kind.accepts literal := by
      rcases embeds with rfl | rfl
      · exact ((readEmbedded_ok.mp value).2.resolve_left (by simp)) literal found
      · exact ((readEmbedded_ok.mp fallback).2.resolve_left (by simp)) literal found
    exact absurd accepted refused
  | error fault =>
    have either : ∃ key : Key, readEmbedded false name kind (lookup? key.text properties) =
        .error fault := by
      simp only [ofProperties, bind_eq_error, named, typed, offered, reduceCtorEq, false_or,
        Except.ok.injEq, exists_eq_left'] at outcome
      obtain ⟨_, -, value | ⟨_, -, fallback | ⟨_, -, made⟩⟩⟩ := outcome
      · exact ⟨.value, value⟩
      · exact ⟨.fallback, fallback⟩
      · cases made
    obtain ⟨other, failed⟩ := either
    obtain ⟨-, l, -, refused, rfl⟩ := readEmbedded_error failed
    exact ⟨l, refused, rfl⟩

/-- The last property of one declaration, with all that stands between its value and the properties
of the next one that follow the name. -/
def swallow (last : Property) (mid : Text) (next : Declaration) : Property :=
  ⟨last.key, last.value ++ (closeMark ++ mid ++ openMark ++ Key.name.text ++ [':', ' ']) ++
    next.name⟩

variable {d next : Declaration} {front : List Property} {last : Property} {mid : Text}

theorem write_joined (parted : d.properties = front ++ [last]) (mid : Text)
    (next : Declaration) :
    d.write ++ mid ++ next.write = openMark ++
      Text.join ", ".toList
        ((front ++ swallow last mid next :: next.properties.tail).map Property.write) ++
      closeMark := by
  let name : Property := ⟨Key.name.text, next.name⟩
  have named : next.properties = name :: next.properties.tail := rfl
  have swallowed : (swallow last mid next).write =
      last.write ++ (closeMark ++ mid ++ openMark) ++ name.write := by
    simp [swallow, name, Property.write]
  have seam := Text.join_seam ", ".toList (closeMark ++ mid ++ openMark)
    (front.map Property.write) last.write name.write (next.properties.tail.map Property.write)
  rw [List.map_append, List.map_cons, swallowed, ← seam, ← List.map_cons, ← named, write, write,
    writeProperties_eq, writeProperties_eq, parted, List.map_append]
  simp

theorem swallow_free {c : Char} (marks : c ∉ closeMark ∧ c ∉ openMark)
    (key : c ∉ Key.name.text ++ [':', ' ']) (value : c ∉ last.value) (within : c ∉ mid)
    (name : c ∉ next.name) : c ∉ (swallow last mid next).value := by
  simp only [List.mem_append, not_or] at key
  simp only [swallow, List.mem_append, not_or]
  exact ⟨⟨value, ⟨⟨⟨marks.1, within⟩, marks.2⟩, key.1⟩, key.2⟩, name⟩

theorem swallow_inline (inline : last.value.Inline) (identifier : next.name.isIdentifier)
    (comma : ',' ∉ mid) (line : '\n' ∉ mid) : (swallow last mid next).value.Inline := by
  obtain ⟨some, free, plain, trimmed⟩ := inline
  have name := Text.identifier_inline identifier
  refine ⟨?_, ?_, ?_, ?_⟩
  · simp [swallow, some]
  · exact swallow_free (by decide) (by decide) free comma name.2.1
  · exact swallow_free (by decide) (by decide) plain line name.2.2.1
  · exact Text.trimmed_between some name.1 trimmed name.2.2.2 _

theorem swallow_refused {kind : Kind} (typed : kind ≠ .unknown)
    (inline : (swallow last mid next).value.Inline) (name : next.name.isIdentifier) :
    ¬ kind.accepts (swallow last mid next).value := by
  have brace : '}' ∈ (swallow last mid next).value := by simp [swallow, closeMark]
  have unquoted : (swallow last mid next).value.getLast? ≠ some '\'' := by
    rw [swallow, List.getLast?_append_of_ne_nil _ (Text.identifier_ne_nil name)]
    intro quote
    exact Text.identifier_free name (by decide) (List.mem_of_getLast? quote)
  exact Kind.refuses_brace typed inline.2.2.2 brace unquoted

theorem properties_last (offers : d.value.isSome ∨ d.fallback.isSome) :
    ∃ (front : List Property) (key : Key) (v : Value),
      d.properties = ⟨Key.name.text, d.name⟩ :: ⟨Key.kind.text, d.kind.tag⟩ :: front ++
        [⟨key.text, v.literal⟩] ∧
      (key = .value ∨ key = .fallback) ∧ lookup? key.text front = none := by
  cases d with
  | mk name kind value fallback =>
    cases fallback with
    | some v =>
      cases value with
      | none => exact ⟨[], .fallback, v, rfl, Or.inr rfl, rfl⟩
      | some u =>
        have other : Key.value.text ≠ Key.fallback.text := by decide
        exact ⟨[⟨Key.value.text, u.literal⟩], .fallback, v, rfl, Or.inr rfl,
          lookup_cons_other other []⟩
    | none =>
      obtain ⟨v, rfl⟩ := Option.isSome_iff_exists.mp (by simpa using offers)
      exact ⟨[], .value, v, rfl, Or.inl rfl, rfl⟩

theorem joined_sound (first : d.Readable) (second : next.Readable)
    (parted : d.properties = front ++ [last]) (comma : ',' ∉ mid) (line : '\n' ∉ mid) :
    ∀ property ∈ front ++ swallow last mid next :: next.properties.tail,
      property.key.isIdentifier ∧ property.value.Inline := by
  have own := properties_sound first
  rw [parted] at own
  intro property member
  rcases List.mem_append.mp member with before | behind
  · exact own property (List.mem_append_left [last] before)
  · rcases List.mem_cons.mp behind with rfl | later
    · obtain ⟨key, inline⟩ := own last (List.mem_append_right front List.mem_cons_self)
      exact ⟨key, swallow_inline inline second.name comma line⟩
    · exact properties_sound second property (List.mem_of_mem_tail later)

theorem read_joined (first : d.WellFormed) (second : next.Readable) (typed : d.kind ≠ .unknown)
    (comma : ',' ∉ mid) (line : '\n' ∉ mid) :
    ∃ l, ¬ d.kind.accepts l ∧ read false (d.write ++ mid ++ next.write) =
      .error (.kindMismatch d.name d.kind (Kind.detect l)) := by
  obtain ⟨front, key, v, parted, embeds, absent⟩ := properties_last first.offers
  have sound := joined_sound first.toReadable second parted comma line
  have refused : ¬ d.kind.accepts (swallow ⟨key.text, v.literal⟩ mid next).value := by
    have inline := (sound (swallow ⟨key.text, v.literal⟩ mid next) (by simp)).2
    exact swallow_refused typed inline second.name
  have other : Key.name.text ≠ key.text ∧ Key.kind.text ≠ key.text := by
    rcases embeds with rfl | rfl
    · decide
    · decide
  have found (rest : List Property) : lookup? key.text (⟨Key.name.text, d.name⟩ ::
      ⟨Key.kind.text, d.kind.tag⟩ :: (front ++ swallow ⟨key.text, v.literal⟩ mid next :: rest)) =
      some (swallow ⟨key.text, v.literal⟩ mid next).value := by
    rw [lookup_cons_other other.1, lookup_cons_other other.2, lookup_append, absent]
    simp [lookup?, swallow]
  rw [write_joined parted]
  simp only [List.cons_append] at sound ⊢
  rw [read_listed sound]
  refine ofProperties_mismatch (readName_unquoted ?_ first.name _) (readKind_tag ?_) embeds
    (found next.properties.tail) refused
  · simp [lookup?]
  · simp [lookup?, Key.text_inj]

end Declaration

theorem scan_line {inner : Text} (some : inner ≠ []) (line : '\n' ∉ inner) {lenient : Bool}
    {cause : Declaration.Fault}
    (failed : Declaration.read lenient (openMark ++ inner ++ closeMark) = .error cause) :
    scan ⟨.greedy, lenient⟩ (openMark ++ inner ++ closeMark) =
      .error ⟨Position.start, cause⟩ := by
  apply scan_error.mpr
  refine ⟨0, ?_, (Position.walkTo_reached (Nat.zero_le _) _).symm⟩
  rw [Envelope.cut_line some line]
  simp only [Scan.occurrences, failed]
  rfl

/-- Whatever is between two placeholders on a line, scanning does not merge them silently. -/
theorem joined_placeholders_mismatch {one other : Text} {d next : Declaration} {mid : Text}
    (first : Declaration.read false one = .ok d) (second : Declaration.read false other = .ok next)
    (typed : d.kind ≠ .unknown) (comma : ',' ∉ mid) (line : '\n' ∉ mid) :
    ∃ actual, actual ≠ d.kind ∧ scan {} (d.write ++ mid ++ next.write) =
      .error ⟨Position.start, .kindMismatch d.name d.kind actual⟩ := by
  have wellFormed : d.WellFormed :=
    ⟨Declaration.read_readable first, Declaration.read_offers first⟩
  have readable := Declaration.read_readable second
  obtain ⟨l, refused, failed⟩ := Declaration.read_joined wellFormed readable typed comma line
  have whole : d.write ++ mid ++ next.write =
      openMark ++ (d.body ++ closeMark ++ mid ++ openMark ++ next.body) ++ closeMark := by
    simp [Declaration.write, Declaration.body]
  have plain : '\n' ∉ d.body ++ closeMark ++ mid ++ openMark ++ next.body := by
    have front := Declaration.body_line wellFormed.toReadable
    have back := Declaration.body_line readable
    have marks : '\n' ∉ closeMark ∧ '\n' ∉ openMark := by decide
    simp only [List.mem_append, not_or]
    exact ⟨⟨⟨⟨front, marks.1⟩, line⟩, marks.2⟩, back⟩
  refine ⟨Kind.detect l, Kind.detect_other typed refused, ?_⟩
  rw [whole] at failed ⊢
  exact scan_line (by simp [closeMark]) plain failed

theorem fallback_does_not_take_a_value :
    let d : Declaration := ⟨['a'], .string, none, some (.string ['x'])⟩
    let next : Declaration := ⟨['b'], .string, some (.string ['y']), none⟩
    let mid : Text := "' \x7d\x7d: $\x7b\x7bvalue: '".toList
    (Declaration.read false d.write = .ok d ∧ Declaration.read false next.write = .ok next ∧
      d.kind ≠ .unknown ∧ ',' ∉ mid ∧ '\n' ∉ mid) ∧
    ∃ actual, actual ≠ .string ∧ scan {} (d.write ++ mid ++ next.write) =
      .error ⟨⟨1, 1, 0⟩, .kindMismatch ['a'] .string actual⟩ := by
  intro d next mid
  have first : Declaration.read false d.write = .ok d := by decide +kernel
  have second : Declaration.read false next.write = .ok next := by decide +kernel
  have typed : d.kind ≠ .unknown := by decide
  have comma : ',' ∉ mid := by decide
  have line : '\n' ∉ mid := by decide
  exact ⟨⟨first, second, typed, comma, line⟩,
    joined_placeholders_mismatch first second typed comma line⟩

end Stencil
