import Stencil.Proofs.Literal

/-
The concrete kinds share no literal, because the first character of a literal tells its kind. So the
order in which the kinds are tried does not matter. Accepting, reading, detecting and judging a
literal agree with each other, and none of them sees the blanks around it.
-/
namespace Stencil

theorem Text.trim_padding {front back : Text} (before : ∀ c ∈ front, isBlank c)
    (after : ∀ c ∈ back, isBlank c) (text : Text) : (front ++ text ++ back).trim = text.trim := by
  obtain ⟨left, right, joined, ahead, behind⟩ := trim_splits text
  have parted : front ++ text ++ back = (front ++ left) ++ text.trim ++ (right ++ back) := by
    calc front ++ text ++ back
        _ = front ++ (left ++ text.trim ++ right) ++ back := by rw [← joined]
        _ = (front ++ left) ++ text.trim ++ (right ++ back) := by simp
  rw [parted]
  refine trim_padded (trim_trimmed text) _ _ ?_ ?_
  · exact List.forall_mem_append.mpr ⟨before, ahead⟩
  · exact List.forall_mem_append.mpr ⟨behind, after⟩

namespace Kind

theorem mem_concrete {kind : Kind} : kind ∈ concrete ↔ kind ≠ .unknown := by
  cases kind <;> decide

/-- The one concrete kind whose literals can start with a character. -/
def ofFirst (c : Char) : Kind :=
  if c = '\'' then .string
  else if c = 't' ∨ c = 'f' then .boolean
  else if c = 'n' then .null
  else .number

theorem number_first {c : Char} (first : c.isDigit ∨ c = '-' ∨ c = '+' ∨ c = '.') :
    ofFirst c = .number := by
  have other {d : Char} (absent : ¬ (d.isDigit ∨ d = '-' ∨ d = '+' ∨ d = '.')) : c ≠ d := by
    rintro rfl
    exact absent first
  have quote := other (d := '\'') (by decide)
  have words := And.intro (other (d := 't') (by decide)) (other (d := 'f') (by decide))
  have null := other (d := 'n') (by decide)
  rw [ofFirst, if_neg quote, if_neg (not_or.mpr words), if_neg null]

theorem accepted_first {kind : Kind} {literal : Text} (typed : kind ≠ .unknown)
    (accepted : kind.accepts literal) : literal.trim.head?.map ofFirst = some kind := by
  cases kind with
  | string =>
    obtain ⟨inner, quoted, -⟩ := isQuoted_iff.mp accepted
    rw [Text.unquote_eq_some.mp quoted]
    rfl
  | number =>
    obtain ⟨some, characters⟩ := number_characters accepted
    obtain ⟨c, rest, body⟩ := List.exists_cons_of_ne_nil some
    rw [body] at characters ⊢
    exact congrArg Option.some (number_first (characters c List.mem_cons_self))
  | boolean =>
    rw [accepts, Bool.or_eq_true, beq_iff_eq, beq_iff_eq] at accepted
    rcases accepted with same | same
    · rw [same]
      rfl
    · rw [same]
      rfl
  | null =>
    rw [accepts, beq_iff_eq] at accepted
    rw [accepted]
    rfl
  | unknown => exact absurd rfl typed

theorem accepts_unique {a b : Kind} {literal : Text} (typed : a ≠ .unknown) (other : b ≠ .unknown)
    (one : a.accepts literal) (two : b.accepts literal) : a = b := by
  have first := accepted_first typed one
  rw [accepted_first other two] at first
  exact (Option.some.inj first).symm

theorem find_accepted {kinds : List Kind} {kind : Kind} {literal : Text}
    (typed : ∀ k ∈ kinds, k ≠ .unknown) :
    kinds.find? (·.accepts literal) = some kind ↔ kind ∈ kinds ∧ kind.accepts literal := by
  constructor
  · intro found
    exact ⟨List.mem_of_find?_eq_some found, by simpa using List.find?_some found⟩
  · rintro ⟨member, accepted⟩
    cases found : kinds.find? (·.accepts literal) with
    | none => exact absurd accepted (by simpa using List.find?_eq_none.mp found kind member)
    | some other =>
      have inside := typed other (List.mem_of_find?_eq_some found)
      have also : other.accepts literal := by simpa using List.find?_some found
      rw [accepts_unique inside (typed kind member) also accepted]

theorem find_reordered {kinds order : List Kind} (same : order.Perm kinds)
    (typed : ∀ k ∈ kinds, k ≠ .unknown) (literal : Text) :
    order.find? (·.accepts literal) = kinds.find? (·.accepts literal) := by
  have ordered : ∀ k ∈ order, k ≠ .unknown := fun k member => typed k (same.mem_iff.mp member)
  ext kind
  rw [find_accepted ordered, find_accepted typed, same.mem_iff]

theorem detect_iff {kind : Kind} {literal : Text} (typed : kind ≠ .unknown) :
    detect literal = kind ↔ kind.accepts literal := by
  have found : concrete.find? (·.accepts literal) = some kind ↔ kind.accepts literal := by
    rw [find_accepted fun _ member => mem_concrete.mp member, mem_concrete]
    exact and_iff_right typed
  rw [← found, detect, Option.getD_eq_iff]
  simp [Ne.symm typed]

theorem detect_other {kind : Kind} {literal : Text} (typed : kind ≠ .unknown)
    (refused : ¬ kind.accepts literal) : detect literal ≠ kind :=
  mt (detect_iff typed).mp refused

theorem accepts_of_trim {a b : Text} (same : a.trim = b.trim) (kind : Kind) :
    kind.accepts a = kind.accepts b := by
  unfold accepts
  rw [same]

theorem read_of_trim {a b : Text} (same : a.trim = b.trim) (kind : Kind) :
    kind.read? a = kind.read? b := by
  unfold read?
  rw [same]

theorem detect_of_trim {a b : Text} (same : a.trim = b.trim) : detect a = detect b := by
  simp only [detect, accepts_of_trim same]

end Kind

namespace Verdict

theorem of_valid (kind : Kind) (literal : Text) :
    (of kind literal).valid = kind.accepts literal := by
  rw [of]
  split
  · next accepted => exact accepted.symm
  · next refused => exact (Bool.eq_false_iff.mpr refused).symm

theorem refused {kind : Kind} {literal : Text} (other : ¬ kind.accepts literal) :
    of kind literal = ⟨false, Kind.detect literal⟩ := by
  -- the one kind that is not tried would refuse the literal again
  have skipped : (Kind.concrete.filter (· ≠ kind)).find? (·.accepts literal) =
      Kind.concrete.find? (·.accepts literal) := by
    rw [List.find?_filter]
    congr 1
    funext k
    by_cases same : k = kind
    · simp [same, other]
    · simp [same]
  rw [of, if_neg other, Kind.detect, ← skipped]

theorem of_detected {kind : Kind} (typed : kind ≠ .unknown) (literal : Text) :
    (of kind literal).detected = Kind.detect literal := by
  by_cases accepted : kind.accepts literal
  · rw [of, if_pos accepted, (Kind.detect_iff typed).mpr accepted]
  · rw [refused accepted]

theorem of_trim {a b : Text} (same : a.trim = b.trim) (kind : Kind) : of kind a = of kind b := by
  simp only [of, Kind.accepts_of_trim same]

end Verdict

open Kind

/-- A literal has at most one concrete kind, and everything that asks for the kind of a literal finds
that one, whatever blanks are around it. -/
theorem literals_have_one_kind (literal : Text) :
    (∀ a ∈ concrete, ∀ b ∈ concrete, a.accepts literal → b.accepts literal → a = b) ∧
    (∀ order : List Kind, order.Perm concrete →
      (order.find? (·.accepts literal)).getD .unknown = detect literal) ∧
    (∀ kind : Kind, (kind.accepts literal ↔ ∃ value, kind.read? literal = some value) ∧
      ∀ value, kind.read? literal = some value → value.kind = kind) ∧
    (∀ kind ∈ concrete, ((Verdict.of kind literal).valid ↔ detect literal = kind) ∧
      (Verdict.of kind literal).detected = detect literal) ∧
    ∀ front body back : Text, literal = front ++ body ++ back →
      (∀ c ∈ front, isBlank c) → (∀ c ∈ back, isBlank c) →
      detect literal = detect body ∧ ∀ kind : Kind, kind.accepts literal = kind.accepts body ∧
        kind.read? literal = kind.read? body ∧ Verdict.of kind literal = Verdict.of kind body := by
  refine ⟨?_, ?_, ?_, ?_, ?_⟩
  · intro a first b second one two
    exact accepts_unique (mem_concrete.mp first) (mem_concrete.mp second) one two
  · intro order same
    rw [find_reordered same fun _ member => mem_concrete.mp member, detect]
  · intro kind
    refine ⟨?_, fun value => read_kind⟩
    rw [accepts_eq_read, Option.isSome_iff_exists]
  · intro kind member
    have typed := mem_concrete.mp member
    rw [Verdict.of_valid, detect_iff typed]
    exact ⟨Iff.rfl, Verdict.of_detected typed literal⟩
  · intro front body back joined before after
    have same : literal.trim = body.trim := by rw [joined, Text.trim_padding before after]
    exact ⟨detect_of_trim same, fun kind => ⟨accepts_of_trim same kind, read_of_trim same kind,
      Verdict.of_trim same kind⟩⟩

theorem padded_quoted_digits_are_a_string :
    let body : Text := "'-0.5'".toList
    let front : Text := "\u00a0\r\n".toList
    let literal := front ++ body ++ [' ']
    let order : List Kind := [.null, .boolean, .number, .string]
    let value : Value := .string "-0.5".toList
    (accepts .string literal ∧ ¬ accepts .number literal) ∧
      (order.find? (·.accepts literal)).getD .unknown = detect literal ∧
      (read? .string literal = some value ∧ value.kind = .string) ∧
      detect literal = .string ∧ (Verdict.of .number literal).detected = detect literal ∧
      Verdict.of .number literal = Verdict.of .number body := by
  intro body front literal order value
  have before : ∀ c ∈ front, isBlank c := List.all_eq_true.mp (by decide)
  have after : ∀ c ∈ [' '], isBlank c := List.all_eq_true.mp (by decide)
  have accepted : accepts .string literal := by decide
  have read : read? .string literal = some value := by decide
  obtain ⟨unique, reordered, readers, judged, padded⟩ := literals_have_one_kind literal
  refine ⟨⟨accepted, fun also => ?_⟩, reordered order (by decide), ⟨read, ?_⟩, ?_, ?_, ?_⟩
  · cases unique .string (by decide) .number (by decide) accepted also
  · exact (readers .string).2 value read
  · exact (judged .string (by decide)).1.mp (by decide)
  · exact (judged .number (by decide)).2
  · exact ((padded front body [' '] rfl before after).2 .number).2.2

end Stencil
