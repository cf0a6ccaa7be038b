import Stencil.Proofs.Literal.Kinds

/-
The values that come back from their literals are exactly the legible ones, and that is so whether
they are compared as values or as numbers. The literal of a typed value is never one of another
kind: where the value cannot be read back, its literal has no kind at all.
-/
namespace Stencil

namespace Binary64

theorem equal_isFinite {n m : Binary64} (same : n.equal m) (finite : n.isFinite) : m.isFinite := by
  cases n with
  | nan => cases finite
  | infinite negative => cases finite
  | finite negative magnitude =>
    cases m with
    | nan => cases same
    | infinite other => cases same
    | finite other size => rfl

theorem equal_self {n : Binary64} (finite : n.isFinite) : n.equal n := by
  cases n with
  | nan => cases finite
  | infinite negative => cases finite
  | finite negative magnitude => simp [equal]

end Binary64

namespace Value

theorem equal_cases {a b : Value} (same : a.equal b) :
    a = b ∨ ∃ n m, a = .number n ∧ b = .number m ∧ n.equal m := by
  unfold equal at same
  split at same
  · next n m => exact Or.inr ⟨n, m, rfl, rfl, same⟩
  · exact Or.inl (beq_iff_eq.mp same)

theorem equal_self {value : Value} (legible : value.Legible) : value.equal value := by
  unfold equal
  split
  · exact Binary64.equal_self legible
  · exact beq_self_eq_true value

/-- Even the literal that cannot be read back starts as those of its kind do. -/
theorem literal_first {value : Value} (typed : value.kind ≠ .unknown) :
    value.literal.trim.head?.map Kind.ofFirst = some value.kind := by
  cases value with
  | string content =>
    rw [Text.trim_of_trimmed (string_literal_trimmed content)]
    rfl
  | number n =>
    cases n with
    | nan => decide
    | infinite negative => cases negative <;> decide
    | finite negative magnitude =>
      have read := @read_legible (.number (.finite negative magnitude)) rfl
      refine Kind.accepted_first typed ?_
      rw [Kind.accepts_eq_read, read]
      rfl
  | boolean b => cases b <;> decide
  | null => decide
  | raw content => exact absurd rfl typed

theorem legible_of_read {value again : Value} (typed : value.kind ≠ .unknown)
    (read : value.kind.read? value.literal = some again) : value.Legible := by
  cases value with
  | string content =>
    have quoted : (literal (.string content)).trim.unquote? = some content := by
      rw [Text.trim_of_trimmed (string_literal_trimmed content)]
      exact Text.unquote_eq_some.mpr rfl
    simp only [kind, Kind.read?, quoted, Option.map_eq_some_iff, Option.filter_eq_some_iff] at read
    obtain ⟨inner, ⟨same, line⟩, -⟩ := read
    obtain rfl := Option.some.inj same
    simpa [Legible] using line
  | number n =>
    cases n with
    | nan =>
      have refused : Kind.read? .number (literal (.number .nan)) = none := by decide
      rw [kind, refused] at read
      cases read
    | infinite negative =>
      have refused : Kind.read? .number (literal (.number (.infinite negative))) = none := by
        cases negative <;> decide
      rw [kind, refused] at read
      cases read
    | finite negative magnitude => rfl
  | boolean b => trivial
  | null => trivial
  | raw content => exact absurd rfl typed

theorem legible_of_kept {value : Value} (read : value.kind.read? value.literal = some value) :
    value.Legible := by
  by_cases typed : value.kind = .unknown
  · cases value with
    | raw content =>
      have kept : content.trim = content := Value.raw.inj (Option.some.inj read)
      rw [Legible, ← kept]
      exact Text.trim_trimmed content
    | _ => cases typed
  · exact legible_of_read typed read

theorem legible_of_equal {value again : Value}
    (read : value.kind.read? value.literal = some again) (same : again.equal value) :
    value.Legible := by
  rcases equal_cases same with rfl | ⟨n, m, rfl, rfl, -⟩
  · exact legible_of_kept read
  · exact legible_of_read nofun read

theorem detect_legible {value : Value} (typed : value.kind ≠ .unknown) (legible : value.Legible) :
    Kind.detect value.literal = value.kind := by
  rw [Kind.detect_iff typed, Kind.accepts_eq_read, read_legible legible]
  rfl

theorem detect_illegible {value : Value} (typed : value.kind ≠ .unknown)
    (illegible : ¬ value.Legible) : Kind.detect value.literal = .unknown := by
  by_contra other
  have accepted := (Kind.detect_iff other).mp rfl
  have own : Kind.detect value.literal = value.kind := by
    have first := Kind.accepted_first other accepted
    rw [literal_first typed] at first
    exact (Option.some.inj first).symm
  rw [own, Kind.accepts_eq_read, Option.isSome_iff_exists] at accepted
  obtain ⟨again, read⟩ := accepted
  exact illegible (legible_of_read typed read)

theorem literals_tell_values (value : Value) :
    (value.kind.read? value.literal = some value ↔ value.Legible) ∧
      ((∃ again, value.kind.read? value.literal = some again ∧ again.equal value) ↔
        value.Legible) ∧
      (value.kind ≠ .unknown →
        (value.Legible → Kind.detect value.literal = value.kind) ∧
        (¬ value.Legible → Kind.detect value.literal = .unknown)) := by
  refine ⟨⟨legible_of_kept, read_legible⟩, ⟨?_, fun legible => ?_⟩, fun typed => ?_⟩
  · rintro ⟨again, read, same⟩
    exact legible_of_equal read same
  · exact ⟨value, read_legible legible, equal_self legible⟩
  · exact ⟨detect_legible typed, detect_illegible typed⟩

theorem quoted_words_stay_strings :
    let word : Value := .string "'true'".toList
    let broken : Value := .string "1\n".toList
    let padded : Value := .raw " 1".toList
    (word.kind.read? word.literal = some word ∧ Kind.detect word.literal = .string) ∧
      (broken.kind.read? broken.literal ≠ some broken ∧ Kind.detect broken.literal = .unknown) ∧
      ¬ ∃ again, padded.kind.read? padded.literal = some again ∧ again.equal padded := by
  intro word broken padded
  obtain ⟨kept, -, typed⟩ := literals_tell_values word
  obtain ⟨lost, -, untyped⟩ := literals_tell_values broken
  obtain ⟨-, equal, -⟩ := literals_tell_values padded
  refine ⟨⟨kept.mpr (by decide), (typed (by decide)).1 (by decide)⟩, ⟨?_, ?_⟩, ?_⟩
  · exact mt lost.mp (by decide)
  · exact (untyped (by decide)).2 (by decide)
  · exact mt equal.mp (by decide)

end Value
end Stencil
