import Stencil.Proofs.Text.Parts
import Stencil.Proofs.Text.Trimmed
import Stencil.Property

/-
A segment is a property when its first colon stands between an identifier and a value on one line,
whatever blanks are around the two.
-/
namespace Stencil

namespace Text

theorem alphanum_range {c : Char} (alphanum : c.isAlphanum) :
    (48 ≤ c.toNat ∧ c.toNat ≤ 57) ∨ (65 ≤ c.toNat ∧ c.toNat ≤ 90) ∨
      (97 ≤ c.toNat ∧ c.toNat ≤ 122) := by
  delta Char.isAlphanum Char.isAlpha Char.isUpper Char.isLower Char.isDigit at alphanum
  simp only [Bool.or_eq_true, Bool.and_eq_true, decide_eq_true_eq, ge_iff_le,
    UInt32.le_iff_toNat_le] at alphanum
  rcases alphanum with (upper | lower) | digit
  · exact Or.inr (Or.inl upper)
  · exact Or.inr (Or.inr lower)
  · exact Or.inl digit

theorem alphanum_not_blank {c : Char} (alphanum : c.isAlphanum) : isBlank c = false := by
  have range := alphanum_range alphanum
  simp only [isBlank, blankRanges, List.any_cons, List.any_nil, Bool.or_false,
    Bool.or_eq_false_iff, Bool.and_eq_false_iff, decide_eq_false_iff_not]
  omega

theorem identifier_alphanum {text : Text} (identifier : text.isIdentifier) :
    ∀ c ∈ text, c.isAlphanum := by
  cases text with
  | nil => simp
  | cons first rest =>
    simp only [isIdentifier, Bool.and_eq_true, List.all_eq_true] at identifier
    intro c member
    rcases List.mem_cons.mp member with rfl | later
    · simp [Char.isAlphanum, identifier.1]
    · exact identifier.2 c later

theorem identifier_ne_nil {text : Text} (identifier : text.isIdentifier) : text ≠ [] := by
  rintro rfl
  cases identifier

theorem identifier_free {text : Text} {c : Char} (identifier : text.isIdentifier)
    (other : c.isAlphanum = false) : c ∉ text := by
  intro member
  have alphanum := identifier_alphanum identifier c member
  rw [other] at alphanum
  cases alphanum

theorem trimmed_of_dark {text : Text} (dark : ∀ c ∈ text, isBlank c = false) : text.Trimmed :=
  ⟨fun c first => dark c (List.mem_of_head? first),
    fun c last => dark c (List.mem_of_getLast? last)⟩

theorem identifier_trimmed {text : Text} (identifier : text.isIdentifier) : text.Trimmed :=
  trimmed_of_dark fun c member => alphanum_not_blank (identifier_alphanum identifier c member)

theorem identifier_not_quoted {text : Text} (identifier : text.isIdentifier) :
    text.unquote? = none := by
  rw [Option.eq_none_iff_forall_ne_some]
  intro inner quoted
  have quote : '\'' ∉ text := identifier_free identifier (by decide)
  rw [unquote_eq_some.mp quoted] at quote
  exact quote List.mem_cons_self

end Text

namespace Property

theorem ofText_eq_some {segment : Text} {property : Property} :
    ofText? segment = some property ↔
      ∃ left right : Text, segment = left ++ ':' :: right ∧ ':' ∉ left ∧
        property = ⟨left.trim, right.trim⟩ ∧
        left.trim.isIdentifier ∧ right.trim ≠ [] ∧ '\n' ∉ right.trim := by
  have accepted (left right : Text) :
      (left.trim.isIdentifier && !right.trim.isEmpty && !right.trim.contains '\n') = true ↔
        left.trim.isIdentifier ∧ right.trim ≠ [] ∧ '\n' ∉ right.trim := by
    simp [and_assoc]
  unfold ofText?
  constructor
  · intro found
    obtain ⟨⟨left, right⟩, cut, made⟩ := Option.bind_eq_some_iff.mp found
    obtain ⟨joined, free⟩ := Text.splitFirst_eq_some.mp cut
    dsimp only at made
    split at made
    · next good =>
      exact ⟨left, right, joined, free, (Option.some.inj made).symm,
        (accepted left right).mp good⟩
    · cases made
  · rintro ⟨left, right, joined, free, rfl, good⟩
    rw [Text.splitFirst_eq_some.mpr ⟨joined, free⟩]
    dsimp only [Option.bind_eq_bind, Option.bind_some]
    rw [if_pos ((accepted left right).mpr good)]

theorem ofText_padded {key value : Text} (identifier : key.isIdentifier) (some : value ≠ [])
    (line : '\n' ∉ value) (trimmed : value.Trimmed) (w x y z : Text)
    (blank : ∀ c ∈ w ++ x ++ y ++ z, isBlank c) :
    ofText? (w ++ key ++ x ++ ':' :: (y ++ value ++ z)) = .some ⟨key, value⟩ := by
  simp only [List.mem_append] at blank
  have left : (w ++ key ++ x).trim = key := by
    refine Text.trim_padded (Text.identifier_trimmed identifier) w x ?_ ?_
    · exact fun c member => blank c (by simp [member])
    · exact fun c member => blank c (by simp [member])
  have right : (y ++ value ++ z).trim = value := by
    refine Text.trim_padded trimmed y z ?_ ?_
    · exact fun c member => blank c (by simp [member])
    · exact fun c member => blank c (by simp [member])
  refine ofText_eq_some.mpr ⟨w ++ key ++ x, y ++ value ++ z, rfl, ?_, by rw [left, right], ?_⟩
  · have dark : isBlank ':' = false := by decide
    have word : ':' ∉ key := Text.identifier_free identifier (by decide)
    simp only [List.mem_append, not_or]
    refine ⟨⟨fun member => ?_, word⟩, fun member => ?_⟩
    · have bright := blank ':' (by simp [member])
      rw [dark] at bright
      cases bright
    · have bright := blank ':' (by simp [member])
      rw [dark] at bright
      cases bright
  · rw [left, right]
    exact ⟨identifier, some, line⟩

structure Sound (property : Property) : Prop where
  key : property.key.isIdentifier
  some : property.value ≠ []
  line : '\n' ∉ property.value
  trimmed : property.value.Trimmed

/-- A property written as a segment, with any blanks around its key and its value. -/
def Spells (segment : Text) (property : Property) : Prop :=
  property.Sound ∧ ∃ w x y z : Text, (∀ c ∈ w ++ x ++ y ++ z, isBlank c) ∧
    segment = w ++ property.key ++ x ++ ':' :: (y ++ property.value ++ z)

/-- The blanks of a segment are those that trimming takes off its two halves. -/
theorem ofText_spells {segment : Text} {property : Property} :
    ofText? segment = some property ↔ Spells segment property := by
  constructor
  · intro found
    obtain ⟨left, right, joined, -, made, key, some, line⟩ := ofText_eq_some.mp found
    obtain ⟨w, x, keyed, before, between⟩ := Text.trim_splits left
    obtain ⟨y, z, valued, ahead, behind⟩ := Text.trim_splits right
    rw [made]
    refine ⟨⟨key, some, line, Text.trim_trimmed right⟩, w, x, y, z, ?_, ?_⟩
    · intro c member
      simp only [List.mem_append] at member
      rcases member with ((first | second) | third) | fourth
      · exact before c first
      · exact between c second
      · exact ahead c third
      · exact behind c fourth
    · rw [joined, ← keyed, ← valued]
  · intro spelled
    obtain ⟨sound, w, x, y, z, blank, rfl⟩ := spelled
    exact ofText_padded sound.key sound.some sound.line sound.trimmed w x y z blank

theorem lookup_append (key : Text) (front back : List Property) :
    lookup? key (front ++ back) = (lookup? key front).or (lookup? key back) := by
  rw [lookup?, List.find?_append, Option.map_or]
  rfl

theorem lookup_cons_other {key : Text} {property : Property} (other : property.key ≠ key)
    (properties : List Property) :
    lookup? key (property :: properties) = lookup? key properties := by
  simp [lookup?, other]

theorem lookup_isSome {key : Text} {properties : List Property} :
    (lookup? key properties).isSome ↔ key ∈ properties.map (·.key) := by
  simp [lookup?, List.find?_isSome]

theorem lookup_mem {key value : Text} {properties : List Property}
    (found : lookup? key properties = some value) : ⟨key, value⟩ ∈ properties := by
  obtain ⟨property, hit, rfl⟩ := Option.map_eq_some_iff.mp found
  have same : property.key = key := by simpa using List.find?_some hit
  rw [← same]
  exact List.mem_of_find?_eq_some hit

end Property
end Stencil
