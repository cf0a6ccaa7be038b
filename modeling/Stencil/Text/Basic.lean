/-
Texts are lists of characters. Lengths and offsets count UTF-8 bytes, so an offset may fall
inside a character; such an offset cuts nothing.
-/
namespace Stencil

abbrev Text := List Char

namespace Text

def bytes : Text → Nat
  | [] => 0
  | c :: rest => c.utf8Size + bytes rest

/-- Cuts a text at a byte offset that lies on a character boundary. -/
def cutAt? : Nat → Text → Option (Text × Text)
  | 0, text => some ([], text)
  | _ + 1, [] => none
  | offset + 1, c :: rest =>
    if c.utf8Size ≤ offset + 1 then
      (cutAt? (offset + 1 - c.utf8Size) rest).map fun (before, after) => (c :: before, after)
    else none

/-- The bytes from `start` up to `stop`, when both are character boundaries in this order. -/
def slice? (start stop : Nat) (text : Text) : Option Text :=
  if start ≤ stop then do
    let (_, rest) ← cutAt? start text
    let (middle, _) ← cutAt? (stop - start) rest
    return middle
  else none

def after? : Text → Text → Option Text
  | [], text => some text
  | _ :: _, [] => none
  | m :: mark, c :: text => if m = c then after? mark text else none

def splitFirst? (mark : Char) : Text → Option (Text × Text)
  | [] => none
  | c :: rest =>
    if c = mark then some ([], rest)
    else (splitFirst? mark rest).map fun (before, after) => (c :: before, after)

def split (mark : Char) : Text → List Text
  | [] => [[]]
  | c :: rest =>
    if c = mark then [] :: split mark rest
    else match split mark rest with
      | [] => [[c]]
      | segment :: segments => (c :: segment) :: segments

def join (mark : Text) : List Text → Text
  | [] => []
  | [text] => text
  | text :: others => text ++ mark ++ join mark others

theorem bytes_nil : bytes [] = 0 := rfl

theorem bytes_cons (c : Char) (text : Text) : bytes (c :: text) = c.utf8Size + bytes text := rfl

theorem bytes_append (left right : Text) : bytes (left ++ right) = bytes left + bytes right := by
  induction left with
  | nil => simp [bytes]
  | cons c rest ih => simp only [List.cons_append, bytes, ih, Nat.add_assoc]

theorem length_le_bytes (text : Text) : text.length ≤ bytes text := by
  induction text with
  | nil => simp [bytes]
  | cons c rest ih =>
    have positive := Char.utf8Size_pos c
    simp only [List.length_cons, bytes_cons]
    omega

theorem cutAt_joins {offset : Nat} {text before after : Text}
    (cut : cutAt? offset text = some (before, after)) :
    text = before ++ after ∧ bytes before = offset := by
  fun_induction cutAt? offset text generalizing before after with
  | case1 text => simp_all [bytes]
  | case2 => simp at cut
  | case3 offset c rest fits ih =>
    obtain ⟨⟨inner, outer⟩, found, same⟩ := Option.map_eq_some_iff.mp cut
    obtain ⟨rfl, rfl⟩ := Prod.mk.inj same
    obtain ⟨joined, length⟩ := ih found
    exact ⟨by simp [joined], by rw [bytes_cons]; omega⟩
  | case4 => simp at cut

theorem cutAt_bytes (before after : Text) :
    cutAt? (bytes before) (before ++ after) = some (before, after) := by
  induction before with
  | nil => simp [bytes, cutAt?]
  | cons c rest ih =>
    have positive := Char.utf8Size_pos c
    obtain ⟨k, hk⟩ : ∃ k, bytes (c :: rest) = k + 1 := ⟨bytes (c :: rest) - 1, by
      rw [bytes_cons]; omega⟩
    rw [hk, List.cons_append, cutAt?]
    rw [bytes_cons] at hk
    have fits : c.utf8Size ≤ k + 1 := by omega
    have less : k + 1 - c.utf8Size = bytes rest := by omega
    simp [fits, less, ih]

theorem after_eq_some {mark text rest : Text} :
    after? mark text = some rest ↔ text = mark ++ rest := by
  fun_induction after? mark text with
  | case1 text => simp [eq_comm]
  | case2 => simp
  | case3 m mark text ih => simp [ih]
  | case4 m mark c text other => simp [Ne.symm other]

theorem splitFirst_eq_some {mark : Char} {text before after : Text} :
    splitFirst? mark text = some (before, after) ↔
      text = before ++ mark :: after ∧ mark ∉ before := by
  induction text generalizing before with
  | nil => simp [splitFirst?]
  | cons c rest ih =>
    by_cases same : c = mark
    · subst same
      cases before with
      | nil => simp [splitFirst?, eq_comm]
      | cons d before =>
        simp only [splitFirst?, ↓reduceIte, Option.some.injEq, Prod.mk.injEq, List.cons_append,
          List.cons.injEq, List.mem_cons, not_or]
        constructor
        · rintro ⟨empty, _⟩
          cases empty
        · rintro ⟨⟨equal, _⟩, other, _⟩
          exact absurd equal other
    · cases before with
      | nil => simp [splitFirst?, same]
      | cons d before =>
        simp only [splitFirst?, same, ↓reduceIte, Option.map_eq_some_iff, Prod.exists,
          Prod.mk.injEq, List.cons.injEq, List.cons_append, List.mem_cons, not_or]
        constructor
        · rintro ⟨inner, outer, found, ⟨rfl, rfl⟩, rfl⟩
          obtain ⟨joined, absent⟩ := ih.mp found
          exact ⟨⟨rfl, joined⟩, Ne.symm same, absent⟩
        · rintro ⟨⟨rfl, joined⟩, _, absent⟩
          exact ⟨before, after, ih.mpr ⟨joined, absent⟩, ⟨rfl, rfl⟩, rfl⟩

theorem split_ne_nil (mark : Char) (text : Text) : split mark text ≠ [] := by
  cases text with
  | nil => simp [split]
  | cons c rest =>
    rw [split]
    split
    · simp
    · split <;> simp

theorem join_split (mark : Char) (text : Text) : join [mark] (split mark text) = text := by
  induction text with
  | nil => rfl
  | cons c rest ih =>
    rw [split]
    split
    · next same =>
      subst same
      cases segments : split c rest with
      | nil => exact absurd segments (split_ne_nil c rest)
      | cons segment others => rw [segments] at ih; simp [join, ih]
    · cases segments : split mark rest with
      | nil => exact absurd segments (split_ne_nil mark rest)
      | cons segment others =>
        rw [segments] at ih
        cases others with
        | nil => simp_all [join]
        | cons next others => simp_all [join]

end Text
end Stencil
