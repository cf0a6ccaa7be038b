import Stencil.Proofs.Declaration.WellFormed
import Stencil.Proofs.Envelope.Search

/-
The grammar of placeholders as a description: what a text says segment by segment, and each thing
that can be wrong with it, whatever else is wrong. A text has one meaning and at most one flaw of
each rank.
-/
namespace Stencil

def Leftmost {α : Type} (p : α → Prop) (xs : List α) (x : α) : Prop :=
  ∃ before after, xs = before ++ x :: after ∧ p x ∧ ∀ y ∈ before, ¬ p y

theorem leftmost_cons {α : Type} {p : α → Prop} {x y : α} {xs : List α} :
    Leftmost p (x :: xs) y ↔ (p x ∧ y = x) ∨ (¬ p x ∧ Leftmost p xs y) := by
  constructor
  · rintro ⟨before, after, joined, holds, others⟩
    cases before with
    | nil =>
      obtain ⟨rfl, rfl⟩ := List.cons.inj joined
      exact Or.inl ⟨holds, rfl⟩
    | cons z before =>
      obtain ⟨rfl, rfl⟩ := List.cons.inj joined
      obtain ⟨first, rest⟩ := List.forall_mem_cons.mp others
      exact Or.inr ⟨first, before, after, rfl, holds, rest⟩
  · rintro (⟨holds, rfl⟩ | ⟨first, before, after, rfl, holds, rest⟩)
    · exact ⟨[], xs, rfl, holds, by simp⟩
    · exact ⟨x :: before, after, rfl, holds, List.forall_mem_cons.mpr ⟨first, rest⟩⟩

theorem leftmost_unique {α : Type} {p : α → Prop} {xs : List α} {x y : α}
    (one : Leftmost p xs x) (other : Leftmost p xs y) : x = y := by
  induction xs with
  | nil =>
    obtain ⟨before, after, joined, -⟩ := one
    simp at joined
  | cons z xs ih =>
    rcases leftmost_cons.mp one with ⟨here, rfl⟩ | ⟨notHere, later⟩
    · rcases leftmost_cons.mp other with ⟨-, rfl⟩ | ⟨absent, -⟩
      · rfl
      · exact absurd here absent
    · rcases leftmost_cons.mp other with ⟨here, -⟩ | ⟨-, behind⟩
      · exact absurd here notHere
      · exact ih later behind

theorem leftmost_mem {α : Type} {p : α → Prop} {xs : List α} {x : α} (first : Leftmost p xs x) :
    x ∈ xs ∧ p x := by
  obtain ⟨before, after, rfl, holds, -⟩ := first
  exact ⟨by simp, holds⟩

namespace Property

def Parts (segment : Text) (property : Property) : Prop :=
  ∃ left right : Text, segment = left ++ ':' :: right ∧ ':' ∉ left ∧
    property = ⟨left.trim, right.trim⟩

/-- A segment without colon, with a key that is no identifier, or with a value that is empty or runs
over a line feed. -/
def Malformed (segment : Text) : Prop :=
  ':' ∉ segment ∨ ∃ property, Parts segment property ∧
    (¬ property.key.isIdentifier ∨ property.value = [] ∨ '\n' ∈ property.value)

theorem parts_unique {segment : Text} {a b : Property} (one : Parts segment a)
    (other : Parts segment b) : a = b := by
  obtain ⟨left, right, joined, free, rfl⟩ := one
  obtain ⟨front, back, same, plain, rfl⟩ := other
  have first := Text.splitFirst_eq_some.mpr ⟨joined, free⟩
  rw [Text.splitFirst_eq_some.mpr ⟨same, plain⟩] at first
  obtain ⟨rfl, rfl⟩ := Prod.mk.inj (Option.some.inj first)
  rfl

theorem ofText_parts {segment : Text} {property : Property}
    (found : ofText? segment = some property) : Parts segment property := by
  obtain ⟨left, right, joined, free, made, -⟩ := ofText_eq_some.mp found
  exact ⟨left, right, joined, free, made⟩

theorem ofText_eq_none {segment : Text} : ofText? segment = none ↔ Malformed segment := by
  constructor
  · intro refused
    by_cases colon : ':' ∈ segment
    · cases cut : Text.splitFirst? ':' segment with
      | none => exact absurd colon (Text.splitFirst_eq_none.mp cut)
      | some halves =>
        obtain ⟨left, right⟩ := halves
        obtain ⟨joined, free⟩ := Text.splitFirst_eq_some.mp cut
        refine Or.inr ⟨⟨left.trim, right.trim⟩, ⟨left, right, joined, free, rfl⟩, ?_⟩
        apply Classical.byContradiction
        intro sound
        simp only [not_or, Classical.not_not] at sound
        rw [ofText_eq_some.mpr ⟨left, right, joined, free, rfl, sound⟩] at refused
        cases refused
    · exact Or.inl colon
  · intro malformed
    rw [Option.eq_none_iff_forall_ne_some]
    intro property found
    obtain ⟨left, right, joined, free, made, identifier, some, line⟩ := ofText_eq_some.mp found
    rcases malformed with plain | ⟨other, parts, unsound⟩
    · exact plain (by simp [joined])
    · rw [← parts_unique (ofText_parts found) parts, made] at unsound
      rcases unsound with word | empty | feed
      · exact word identifier
      · exact some empty
      · exact line feed

end Property

namespace Declaration

open Property

/-- What remains without the first three and the last two bytes, cut at every comma. -/
def Segments (text : Text) (segments : List Text) : Prop :=
  ∃ front back : Text, text = front ++ Text.join [','] segments ++ back ∧ front.bytes = 3 ∧
    back.bytes = 2 ∧ segments ≠ [] ∧ ∀ segment ∈ segments, ',' ∉ segment

def HasKey (key : Key) (segment : Text) : Prop := ∃ value, Parts segment ⟨key.text, value⟩

def First (segments : List Text) (key : Key) (value : Text) : Prop :=
  ∃ segment, Leftmost (HasKey key) segments segment ∧ Parts segment ⟨key.text, value⟩

def Lacks (segments : List Text) (key : Key) : Prop := ∀ segment ∈ segments, ¬ HasKey key segment

/-- A name may stand in one pair of quotes. -/
def Named (segments : List Text) (name : Text) : Prop :=
  ∃ quoted, First segments .name quoted ∧
    (quoted = '\'' :: (name ++ ['\'']) ∨
      name = quoted ∧ ∀ inner, quoted ≠ '\'' :: (inner ++ ['\'']))

def Typed (segments : List Text) (kind : Kind) : Prop :=
  First segments .kind kind.tag ∨ Lacks segments .kind ∧ kind = .unknown

def Mismatch (segments : List Text) (kind : Kind) (literal : Text) : Prop :=
  (First segments .value literal ∧ ¬ kind.accepts literal) ∨
    (First segments .fallback literal ∧ ¬ kind.accepts literal ∧
      ∀ value, First segments .value value → kind.accepts value)

/-- What is embedded under a key, or nothing if the literal is not of the declared kind. -/
def Embeds (segments : List Text) (key : Key) (kind : Kind) (value : Option Value) : Prop :=
  (∃ literal, First segments key literal ∧ value = kind.read? literal) ∨
    Lacks segments key ∧ value = none

def Means (text : Text) (d : Declaration) : Prop :=
  ∃ segments, Segments text segments ∧ Named segments d.name ∧ Typed segments d.kind ∧
    Embeds segments .value d.kind d.value ∧ Embeds segments .fallback d.kind d.fallback

inductive Flaw (lenient : Bool) (text : Text) : Fault → Prop where
  | unmarked (bare : ¬ Envelope.Holds text ∨ ∀ segments, ¬ Segments text segments) :
      Flaw lenient text (.notPlaceholder text)
  | malformed {segments : List Text} {segment : Text} (cut : Segments text segments)
      (first : Leftmost Malformed segments segment) :
      Flaw lenient text (.malformedProperty segment)
  | unnamed {segments : List Text} (cut : Segments text segments) (lacks : Lacks segments .name) :
      Flaw lenient text (.missingName text)
  | misnamed {segments : List Text} {name : Text} (cut : Segments text segments)
      (named : Named segments name) (other : ¬ name.isIdentifier) :
      Flaw lenient text (.invalidName name)
  | untyped {segments : List Text} {tag : Text} (cut : Segments text segments)
      (first : First segments .kind tag) (other : ∀ kind : Kind, tag ≠ kind.tag) :
      Flaw lenient text (.unknownKind tag)
  | empty {segments : List Text} (cut : Segments text segments) (value : Lacks segments .value)
      (fallback : Lacks segments .fallback) :
      Flaw lenient text (.missingValue text)
  | mismatched {segments : List Text} {name literal : Text} {kind : Kind} (strict : lenient = false)
      (cut : Segments text segments) (named : Named segments name) (typed : Typed segments kind)
      (other : Mismatch segments kind literal) :
      Flaw lenient text (.kindMismatch name kind (Kind.detect literal))

/-- Which flaw is reported when there are several: the one of least rank. -/
def Fault.rank : Fault → Nat
  | .notPlaceholder _ => 0
  | .malformedProperty _ => 1
  | .missingName _ => 2
  | .invalidName _ => 3
  | .unknownKind _ => 4
  | .missingValue _ => 5
  | .kindMismatch _ _ _ => 6

theorem segments_slice {text : Text} {segments : List Text} :
    Segments text segments ↔ ∃ inner,
      text.slice? openMark.bytes (text.bytes - closeMark.bytes) = some inner ∧
        segments = inner.split ',' := by
  have first : openMark.bytes = 3 := by decide
  have last : closeMark.bytes = 2 := by decide
  rw [first, last]
  constructor
  · rintro ⟨front, back, rfl, three, two, some, free⟩
    refine ⟨Text.join [','] segments, ?_, (Text.split_join some free).symm⟩
    have middle := Text.slice_middle front (Text.join [','] segments) back
    have stop : (front ++ Text.join [','] segments ++ back).bytes - 2 =
        3 + (Text.join [','] segments).bytes := by
      simp only [Text.bytes_append]
      omega
    rwa [three, ← stop] at middle
  · rintro ⟨inner, slice, rfl⟩
    obtain ⟨front, back, joined, three, stop⟩ := Text.slice_joins slice
    have total := congrArg Text.bytes joined
    rw [Text.bytes_append, Text.bytes_append, three] at total
    refine ⟨front, back, by rwa [Text.join_split], three, ?_, Text.split_ne_nil ',' inner, ?_⟩
    · omega
    · exact fun segment member => Text.split_free member

theorem segments_unique {text : Text} {a b : List Text} (one : Segments text a)
    (other : Segments text b) : a = b := by
  obtain ⟨inner, slice, rfl⟩ := segments_slice.mp one
  obtain ⟨middle, same, rfl⟩ := segments_slice.mp other
  rw [slice] at same
  rw [Option.some.inj same]

theorem first_unique {segments : List Text} {key : Key} {a b : Text} (one : First segments key a)
    (other : First segments key b) : a = b := by
  obtain ⟨segment, leftmost, parts⟩ := one
  obtain ⟨again, first, halves⟩ := other
  obtain rfl := leftmost_unique leftmost first
  exact (Property.mk.inj (parts_unique parts halves)).2

theorem first_cons {segments : List Text} {segment value : Text} {key : Key} :
    First (segment :: segments) key value ↔ Parts segment ⟨key.text, value⟩ ∨
      ¬ HasKey key segment ∧ First segments key value := by
  constructor
  · rintro ⟨found, leftmost, parts⟩
    rcases leftmost_cons.mp leftmost with ⟨-, rfl⟩ | ⟨other, later⟩
    · exact Or.inl parts
    · exact Or.inr ⟨other, found, later, parts⟩
  · rintro (parts | ⟨other, found, later, parts⟩)
    · exact ⟨segment, leftmost_cons.mpr (Or.inl ⟨⟨value, parts⟩, rfl⟩), parts⟩
    · exact ⟨found, leftmost_cons.mpr (Or.inr ⟨other, later⟩), parts⟩

theorem lacks_cons {segments : List Text} {segment : Text} {key : Key} :
    Lacks (segment :: segments) key ↔ ¬ HasKey key segment ∧ Lacks segments key :=
  List.forall_mem_cons

theorem lacks_iff {segments : List Text} {key : Key} :
    Lacks segments key ↔ ∀ value, ¬ First segments key value := by
  induction segments with
  | nil => simp [Lacks, First, Leftmost]
  | cons segment segments ih =>
    rw [lacks_cons, ih]
    constructor
    · rintro ⟨other, later⟩ value first
      rcases first_cons.mp first with parts | ⟨-, behind⟩
      · exact other ⟨value, parts⟩
      · exact later value behind
    · intro absent
      have other : ¬ HasKey key segment := by
        rintro ⟨value, parts⟩
        exact absent value (first_cons.mpr (Or.inl parts))
      exact ⟨other, fun value later => absent value (first_cons.mpr (Or.inr ⟨other, later⟩))⟩

theorem named_iff {segments : List Text} {name : Text} :
    Named segments name ↔
      ∃ quoted, First segments .name quoted ∧ name = quoted.unquote?.getD quoted := by
  refine exists_congr fun quoted => and_congr_right fun _ => ?_
  cases pair : quoted.unquote? with
  | some inner =>
    rw [Text.unquote_eq_some.mp pair]
    simp [eq_comm]
  | none =>
    have plain (inner : Text) : quoted ≠ '\'' :: (inner ++ ['\'']) := by
      intro same
      rw [Text.unquote_eq_some.mpr same] at pair
      cases pair
    simp [plain]

theorem named_unique {segments : List Text} {a b : Text} (one : Named segments a)
    (other : Named segments b) : a = b := by
  obtain ⟨quoted, first, rfl⟩ := named_iff.mp one
  obtain ⟨again, same, rfl⟩ := named_iff.mp other
  rw [first_unique first same]

theorem typed_unique {segments : List Text} {a b : Kind} (one : Typed segments a)
    (other : Typed segments b) : a = b := by
  rcases one with first | ⟨lacks, rfl⟩
  · rcases other with second | ⟨absent, -⟩
    · have tag := Kind.ofTag_eq_some.mpr (first_unique first second)
      rw [Kind.ofTag_tag] at tag
      exact Option.some.inj tag
    · exact absurd first (lacks_iff.mp absent _)
  · rcases other with second | ⟨-, rfl⟩
    · exact absurd second (lacks_iff.mp lacks _)
    · rfl

theorem mismatch_unique {segments : List Text} {kind : Kind} {a b : Text}
    (one : Mismatch segments kind a) (other : Mismatch segments kind b) : a = b := by
  rcases one with ⟨first, wrong⟩ | ⟨second, -, sound⟩
  · rcases other with ⟨again, -⟩ | ⟨-, -, right⟩
    · exact first_unique first again
    · exact absurd (right a first) wrong
  · rcases other with ⟨first, wrong⟩ | ⟨again, -⟩
    · exact absurd (sound b first) wrong
    · exact first_unique second again

theorem embeds_unique {segments : List Text} {key : Key} {kind : Kind} {a b : Option Value}
    (one : Embeds segments key kind a) (other : Embeds segments key kind b) : a = b := by
  rcases one with ⟨literal, first, rfl⟩ | ⟨lacks, rfl⟩
  · rcases other with ⟨again, second, rfl⟩ | ⟨absent, -⟩
    · rw [first_unique first second]
    · exact absurd first (lacks_iff.mp absent literal)
  · rcases other with ⟨literal, second, -⟩ | ⟨-, rfl⟩
    · exact absurd second (lacks_iff.mp lacks literal)
    · rfl

theorem means_unique {text : Text} {a b : Declaration} (one : Means text a) (other : Means text b) :
    a = b := by
  obtain ⟨segments, cut, named, typed, value, fallback⟩ := one
  obtain ⟨again, same, name, kind, first, second⟩ := other
  obtain rfl := segments_unique cut same
  have names := named_unique named name
  have kinds := typed_unique typed kind
  rw [kinds] at value fallback
  have values := embeds_unique value first
  have fallbacks := embeds_unique fallback second
  cases a
  cases b
  simp_all

theorem flaw_unique {lenient : Bool} {text : Text} {a b : Fault} (one : Flaw lenient text a)
    (other : Flaw lenient text b) (same : a.rank = b.rank) : a = b := by
  cases one with
  | unmarked => cases other <;> first | rfl | cases same
  | malformed cut first =>
    cases other with
    | malformed again leftmost =>
      obtain rfl := segments_unique cut again
      rw [leftmost_unique first leftmost]
    | _ => cases same
  | unnamed => cases other <;> first | rfl | cases same
  | misnamed cut named =>
    cases other with
    | misnamed again name =>
      obtain rfl := segments_unique cut again
      rw [named_unique named name]
    | _ => cases same
  | untyped cut first =>
    cases other with
    | untyped again tag =>
      obtain rfl := segments_unique cut again
      rw [first_unique first tag]
    | _ => cases same
  | empty => cases other <;> first | rfl | cases same
  | mismatched _ cut named typed wrong =>
    cases other with
    | mismatched _ again name kind literal =>
      obtain rfl := segments_unique cut again
      obtain rfl := named_unique named name
      obtain rfl := typed_unique typed kind
      rw [mismatch_unique wrong literal]
    | _ => cases same

end Declaration
end Stencil
