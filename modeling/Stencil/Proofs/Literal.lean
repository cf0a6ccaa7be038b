import Stencil.Literal
import Stencil.Proofs.Number.ReadBack
import Stencil.Proofs.Property

/-
A value can be embedded when its literal keeps to one segment and one line of a placeholder. These
are the values that can be read there, and each reads back from its literal.
-/
namespace Stencil

namespace Decimal

theorem text_characters (d : Decimal) : ∀ c ∈ d.text, c.isDigit ∨ c = '-' ∨ c = '.' := by
  have whole := (isDigits_iff.mp (toDigits_isDigits (d.digits / Nat.pow 10 d.places))).2
  have fraction := (isDigits_iff.mp (padded_isDigits d.places (d.digits % Nat.pow 10 d.places))).2
  have magnitude : ∀ c ∈ d.magnitudeText, c.isDigit ∨ c = '-' ∨ c = '.' := by
    intro c member
    rw [magnitudeText] at member
    split at member
    · exact Or.inl (whole c member)
    · rcases List.mem_append.mp member with digit | rest
      · exact Or.inl (whole c digit)
      · rcases List.mem_cons.mp rest with point | digit
        · exact Or.inr (Or.inr point)
        · exact Or.inl (fraction c digit)
  intro c member
  rw [text] at member
  split at member
  · rcases List.mem_cons.mp member with sign | rest
    · exact Or.inr (Or.inl sign)
    · exact magnitude c rest
  · exact magnitude c member

theorem ofText_characters {text : Text} {d : Decimal} (found : ofText? text = some d) :
    ∀ c ∈ text, c.isDigit ∨ c = '-' ∨ c = '+' ∨ c = '.' := by
  have body : ∀ c ∈ (splitSign text).2, c.isDigit ∨ c = '.' := by
    rw [ofText?] at found
    dsimp only at found
    split at found
    · split at found
      · next digits => exact fun c member => Or.inl ((isDigits_iff.mp digits).2 c member)
      · cases found
    · next whole fraction cut =>
      split at found
      · next digits =>
        rw [Bool.and_eq_true] at digits
        rw [(Text.splitFirst_eq_some.mp cut).1]
        intro c member
        rcases List.mem_append.mp member with before | rest
        · exact Or.inl ((isDigits_iff.mp digits.1).2 c before)
        · rcases List.mem_cons.mp rest with point | after
          · exact Or.inr point
          · exact Or.inl ((isDigits_iff.mp digits.2).2 c after)
      · cases found
  intro c member
  have sign : c ∈ (splitSign text).2 ∨ c = '-' ∨ c = '+' := by
    unfold splitSign
    split
    · exact (List.mem_cons.mp member).symm.imp_right Or.inl
    · exact (List.mem_cons.mp member).symm.imp_right Or.inr
    · exact Or.inl member
  rcases sign with inside | minus | plus
  · exact (body c inside).imp_right fun point => Or.inr (Or.inr point)
  · exact Or.inr (Or.inl minus)
  · exact Or.inr (Or.inr (Or.inl plus))

end Decimal

theorem finiteNumber_text {n : Binary64} (finite : n.isFinite) : finiteNumber? n.text = some n := by
  cases n with
  | nan => cases finite
  | infinite negative => cases finite
  | finite negative magnitude =>
    rw [finiteNumber?, Binary64.text, Decimal.ofText_text, Option.map_some,
      Binary64.ofDecimal_shortest]
    rfl

theorem isQuoted_iff {text : Text} :
    isQuoted text ↔ ∃ inner, text.unquote? = some inner ∧ '\n' ∉ inner := by
  constructor
  · intro quoted
    simp only [isQuoted, Bool.and_eq_true, decide_eq_true_eq, Bool.not_eq_true',
      List.contains_eq_mem, decide_eq_false_iff_not] at quoted
    obtain ⟨⟨⟨long, first⟩, last⟩, line⟩ := quoted
    obtain ⟨rest, rfl⟩ := List.head?_eq_some_iff.mp first
    cases rest with
    | nil => simp at long
    | cons c tail =>
      obtain ⟨inner, same⟩ := List.getLast?_eq_some_iff.mp (by simpa using last)
      rw [same] at line ⊢
      refine ⟨inner, Text.unquote_eq_some.mpr rfl, fun member => line ?_⟩
      simp [member]
  · rintro ⟨inner, quoted, line⟩
    have last : ('\'' :: (inner ++ ['\''])).getLast? = some '\'' := by
      rw [← List.cons_append, List.getLast?_concat]
    rw [Text.unquote_eq_some.mp quoted]
    simp [isQuoted, line, last]

namespace Kind

theorem accepts_eq_read (kind : Kind) (literal : Text) :
    kind.accepts literal = (kind.read? literal).isSome := by
  cases kind with
  | string =>
    rw [Bool.eq_iff_iff, accepts, isQuoted_iff, read?]
    cases literal.trim.unquote? with
    | none => simp
    | some inner => simp
  | number => simp [accepts, read?]
  | boolean =>
    simp only [accepts, read?]
    split
    · next same => simp [same]
    · next other => split <;> simp_all
  | null =>
    simp only [accepts, read?]
    split <;> simp_all
  | unknown => rfl

theorem number_characters {literal : Text} (accepted : accepts .number literal) :
    literal.trim ≠ [] ∧ ∀ c ∈ literal.trim, c.isDigit ∨ c = '-' ∨ c = '+' ∨ c = '.' := by
  rw [accepts, finiteNumber?, Option.isSome_iff_exists] at accepted
  obtain ⟨n, finite⟩ := accepted
  obtain ⟨d, parsed, -⟩ := Option.map_eq_some_iff.mp (Option.filter_eq_some_iff.mp finite).1
  refine ⟨fun empty => ?_, Decimal.ofText_characters parsed⟩
  rw [empty] at parsed
  cases parsed

theorem read_kind {kind : Kind} {literal : Text} {value : Value}
    (read : kind.read? literal = some value) : value.kind = kind := by
  cases kind with
  | string =>
    obtain ⟨content, -, rfl⟩ := Option.map_eq_some_iff.mp read
    rfl
  | number =>
    obtain ⟨n, -, rfl⟩ := Option.map_eq_some_iff.mp read
    rfl
  | boolean =>
    simp only [read?] at read
    split at read
    · cases read
      rfl
    · split at read
      · cases read
        rfl
      · cases read
  | null =>
    simp only [read?] at read
    split at read
    · cases read
      rfl
    · cases read
  | unknown =>
    cases read
    rfl

end Kind

/-- Text that can be the value of a property inside a placeholder. -/
def Text.Inline (text : Text) : Prop :=
  text ≠ [] ∧ ',' ∉ text ∧ '\n' ∉ text ∧ text.Trimmed

instance (text : Text) : Decidable text.Inline :=
  inferInstanceAs (Decidable (_ ∧ _))

theorem Text.identifier_inline {text : Text} (identifier : text.isIdentifier) : text.Inline :=
  ⟨identifier_ne_nil identifier, identifier_free identifier (by decide),
    identifier_free identifier (by decide), identifier_trimmed identifier⟩

theorem Kind.tag_inline (kind : Kind) : kind.tag.Inline := by
  cases kind <;> decide

namespace Value

def Embeddable : Value → Prop
  | .string content => ',' ∉ content ∧ '\n' ∉ content
  | .number n => n.isFinite
  | .boolean _ => True
  | .null => True
  | .raw content => content.Inline

instance : (value : Value) → Decidable value.Embeddable
  | .string content => inferInstanceAs (Decidable (',' ∉ content ∧ '\n' ∉ content))
  | .number n => inferInstanceAs (Decidable (n.isFinite = true))
  | .boolean _ => inferInstanceAs (Decidable True)
  | .null => inferInstanceAs (Decidable True)
  | .raw content => inferInstanceAs (Decidable content.Inline)

theorem number_text_dark {n : Binary64} (finite : n.isFinite) :
    ∀ c ∈ n.text, isBlank c = false ∧ c ≠ ',' := by
  cases n with
  | nan => cases finite
  | infinite negative => cases finite
  | finite negative magnitude =>
    intro c member
    rcases Decimal.text_characters _ c member with digit | rfl | rfl
    · have alphanum : c.isAlphanum := by simp [Char.isAlphanum, digit]
      refine ⟨Text.alphanum_not_blank alphanum, ?_⟩
      rintro rfl
      cases digit
    · decide
    · decide

/-- What can be read back from its literal. -/
def Legible : Value → Prop
  | .string content => '\n' ∉ content
  | .number n => n.isFinite
  | .boolean _ => True
  | .null => True
  | .raw content => content.Trimmed

instance : (value : Value) → Decidable value.Legible
  | .string content => inferInstanceAs (Decidable ('\n' ∉ content))
  | .number n => inferInstanceAs (Decidable (n.isFinite = true))
  | .boolean _ => inferInstanceAs (Decidable True)
  | .null => inferInstanceAs (Decidable True)
  | .raw content => inferInstanceAs (Decidable content.Trimmed)

theorem Embeddable.legible {value : Value} (embeddable : value.Embeddable) : value.Legible := by
  cases value with
  | string content => exact embeddable.2
  | number n => exact embeddable
  | boolean b => trivial
  | null => trivial
  | raw content => exact embeddable.2.2.2

theorem string_literal_trimmed (content : Text) : (literal (.string content)).Trimmed := by
  have last : ('\'' :: (content ++ ['\''])).getLast? = some '\'' := by
    rw [← List.cons_append, List.getLast?_concat]
  constructor
  · rintro c ⟨rfl⟩
    decide
  · rw [literal, last]
    rintro c ⟨rfl⟩
    decide

theorem literal_trimmed {value : Value} (legible : value.Legible) : value.literal.Trimmed := by
  cases value with
  | string content => exact string_literal_trimmed content
  | number n => exact Text.trimmed_of_dark fun c member => (number_text_dark legible c member).1
  | boolean b => cases b <;> decide
  | null => decide
  | raw content => exact legible

theorem literal_inline {value : Value} (embeddable : value.Embeddable) : value.literal.Inline := by
  have trimmed := literal_trimmed embeddable.legible
  cases value with
  | string content =>
    refine ⟨by simp [literal], ?_, ?_, trimmed⟩
    · simpa [literal] using embeddable.1
    · simpa [literal] using embeddable.2
  | number n =>
    have dark := number_text_dark embeddable
    refine ⟨fun empty => ?_, fun comma => (dark ',' comma).2 rfl, fun feed => ?_, trimmed⟩
    · have read := finiteNumber_text embeddable
      change n.text = [] at empty
      rw [empty] at read
      cases read
    · exact absurd (dark '\n' feed).1 (by decide)
  | boolean b => cases b <;> decide
  | null => decide
  | raw content => exact embeddable

theorem text_line {value : Value} (embeddable : value.Embeddable) : '\n' ∉ value.text := by
  have line := (literal_inline embeddable).2.2.1
  cases value with
  | string content => exact embeddable.2
  | number n => exact line
  | boolean b => exact line
  | null => exact line
  | raw content => exact line

theorem read_legible {value : Value} (legible : value.Legible) :
    value.kind.read? value.literal = some value := by
  have trimmed := Text.trim_of_trimmed (literal_trimmed legible)
  cases value with
  | string content =>
    have line : '\n' ∉ content := legible
    have quoted : (literal (.string content)).unquote? = some content :=
      Text.unquote_eq_some.mpr rfl
    simp [kind, Kind.read?, trimmed, quoted, line]
  | number n =>
    have read := finiteNumber_text legible
    change n.text.trim = n.text at trimmed
    simpa [kind, Kind.read?, trimmed, literal, text] using read
  | boolean b => cases b <;> decide
  | null => decide
  | raw content =>
    change content.trim = content at trimmed
    simp [kind, Kind.read?, trimmed, literal, text]

theorem read_literal {value : Value} (embeddable : value.Embeddable) :
    value.kind.read? value.literal = some value := read_legible embeddable.legible

theorem accepts_literal {value : Value} (embeddable : value.Embeddable) :
    value.kind.accepts value.literal := by
  rw [Kind.accepts_eq_read, read_literal embeddable]
  rfl

theorem read_embeddable {kind : Kind} {literal : Text} {value : Value} (inline : literal.Inline)
    (read : kind.read? literal = some value) : value.kind = kind ∧ value.Embeddable := by
  refine ⟨Kind.read_kind read, ?_⟩
  have trimmed := Text.trim_of_trimmed inline.2.2.2
  cases kind with
  | string =>
    simp only [Kind.read?, trimmed, Option.map_eq_some_iff, Option.filter_eq_some_iff] at read
    obtain ⟨content, ⟨quoted, line⟩, rfl⟩ := read
    have comma := inline.2.1
    rw [Text.unquote_eq_some.mp quoted] at comma
    exact ⟨by simpa using comma, by simpa using line⟩
  | number =>
    simp only [Kind.read?, Option.map_eq_some_iff] at read
    obtain ⟨n, found, rfl⟩ := read
    exact (Option.filter_eq_some_iff.mp found).2
  | boolean =>
    simp only [Kind.read?] at read
    split at read
    · cases read
      trivial
    · split at read
      · cases read
        trivial
      · cases read
  | null =>
    simp only [Kind.read?] at read
    split at read
    · cases read
      trivial
    · cases read
  | unknown =>
    simp only [Kind.read?, trimmed, Option.some.injEq] at read
    cases read
    exact inline

end Value
end Stencil
