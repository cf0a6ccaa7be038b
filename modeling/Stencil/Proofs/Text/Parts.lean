import Stencil.Text.Basic

/-
Slices, marks and segments of a text that is known to be put together from parts.
-/
namespace Stencil.Text

theorem append_inj {a b c d : Text} (same : a ++ b = c ++ d) (width : a.bytes = c.bytes) :
    a = c ∧ b = d := by
  have cut := cutAt_bytes a b
  rw [same, width, cutAt_bytes] at cut
  obtain ⟨front, back⟩ := Prod.mk.inj (Option.some.inj cut)
  exact ⟨front.symm, back.symm⟩

theorem slice_middle (before middle after : Text) :
    slice? before.bytes (before.bytes + middle.bytes) (before ++ middle ++ after) =
      some middle := by
  have width : before.bytes + middle.bytes - before.bytes = middle.bytes := by omega
  simp [slice?, List.append_assoc, cutAt_bytes, width]

theorem slice_end (before after : Text) :
    slice? before.bytes (before ++ after).bytes (before ++ after) = some after := by
  have whole := slice_middle before after []
  rwa [List.append_nil, ← bytes_append] at whole

theorem slice_joins {start stop : Nat} {text middle : Text}
    (slice : slice? start stop text = some middle) :
    ∃ front back : Text, text = front ++ middle ++ back ∧ front.bytes = start ∧
      stop = start + middle.bytes := by
  rw [slice?] at slice
  split at slice
  · next ordered =>
    obtain ⟨⟨front, rest⟩, first, cut⟩ := Option.bind_eq_some_iff.mp slice
    obtain ⟨⟨inner, back⟩, second, same⟩ := Option.bind_eq_some_iff.mp cut
    obtain rfl := Option.some.inj same
    obtain ⟨rfl, length⟩ := cutAt_joins first
    obtain ⟨rfl, width⟩ := cutAt_joins second
    exact ⟨front, back, by simp, length, by omega⟩
  · cases slice

theorem after_mark (mark rest : Text) : after? mark (mark ++ rest) = some rest :=
  after_eq_some.mpr rfl

theorem splitFirst_eq_none {mark : Char} {text : Text} :
    splitFirst? mark text = none ↔ mark ∉ text := by
  induction text with
  | nil => simp [splitFirst?]
  | cons c rest ih =>
    by_cases same : c = mark
    · simp [splitFirst?, same]
    · simp [splitFirst?, same, Ne.symm same, ih]

theorem split_of_not_mem {mark : Char} {text : Text} (free : mark ∉ text) :
    split mark text = [text] := by
  induction text with
  | nil => rfl
  | cons c rest ih =>
    simp only [List.mem_cons, not_or] at free
    rw [split, if_neg (Ne.symm free.1), ih free.2]

theorem split_append (mark : Char) (a b : Text) :
    split mark (a ++ mark :: b) = split mark a ++ split mark b := by
  induction a with
  | nil => simp [split]
  | cons c rest ih =>
    rw [List.cons_append, split, split, ih]
    split
    · rfl
    · cases segments : split mark rest with
      | nil => exact absurd segments (split_ne_nil mark rest)
      | cons segment others => rfl

theorem split_join_flatMap {mark : Char} {segments : List Text} (some : segments ≠ []) :
    split mark (join [mark] segments) = segments.flatMap (split mark) := by
  induction segments with
  | nil => exact absurd rfl some
  | cons segment others ih =>
    cases others with
    | nil => simp [join]
    | cons next later =>
      have rest := ih (List.cons_ne_nil next later)
      rw [join, List.append_assoc, List.singleton_append, split_append, rest]
      · rfl
      · exact List.cons_ne_nil next later

theorem flatMap_split_free {mark : Char} {segments : List Text}
    (free : ∀ segment ∈ segments, mark ∉ segment) : segments.flatMap (split mark) = segments := by
  induction segments with
  | nil => rfl
  | cons segment others ih =>
    obtain ⟨first, rest⟩ := List.forall_mem_cons.mp free
    rw [List.flatMap_cons, split_of_not_mem first, ih rest, List.singleton_append]

theorem split_join {mark : Char} {segments : List Text} (some : segments ≠ [])
    (free : ∀ segment ∈ segments, mark ∉ segment) :
    split mark (join [mark] segments) = segments := by
  rw [split_join_flatMap some, flatMap_split_free free]

theorem split_free {mark : Char} {text segment : Text} (member : segment ∈ split mark text) :
    mark ∉ segment := by
  induction text generalizing segment with
  | nil =>
    obtain rfl := List.mem_singleton.mp member
    exact List.not_mem_nil
  | cons c rest ih =>
    rw [split] at member
    split at member
    · rcases List.mem_cons.mp member with rfl | later
      · exact List.not_mem_nil
      · exact ih later
    · next other =>
      split at member
      · next empty => exact absurd empty (split_ne_nil mark rest)
      · next first others segments =>
        rw [segments] at ih
        rcases List.mem_cons.mp member with rfl | later
        · simp only [List.mem_cons, not_or]
          exact ⟨Ne.symm other, ih List.mem_cons_self⟩
        · exact ih (List.mem_cons_of_mem first later)

theorem join_free {c : Char} {mark : Text} {segments : List Text} (plain : c ∉ mark)
    (free : ∀ segment ∈ segments, c ∉ segment) : c ∉ join mark segments := by
  induction segments with
  | nil => exact List.not_mem_nil
  | cons segment others ih =>
    obtain ⟨first, freeOthers⟩ := List.forall_mem_cons.mp free
    have rest := ih freeOthers
    cases others with
    | nil => exact first
    | cons next later => simp [join, first, plain, rest]

theorem join_ne_nil {segment : Text} (some : segment ≠ []) (mark : Text) (others : List Text) :
    join mark (segment :: others) ≠ [] := by
  cases others <;> simp [join, some]

theorem join_cons {segment : Text} {others : List Text} (some : others ≠ []) (mark : Text) :
    join mark (segment :: others) = segment ++ mark ++ join mark others := by
  cases others with
  | nil => exact absurd rfl some
  | cons next later => rfl

/-- Two joined lists with glue between them are one list, whose segments at the seam are stuck
together. -/
theorem join_seam (mark glue : Text) (front : List Text) (a b : Text) (back : List Text) :
    join mark (front ++ [a]) ++ glue ++ join mark (b :: back) =
      join mark (front ++ (a ++ glue ++ b) :: back) := by
  induction front with
  | nil => cases back <;> simp [join]
  | cons segment front ih =>
    have first : join mark (segment :: (front ++ [a])) =
        segment ++ mark ++ join mark (front ++ [a]) := join_cons (by simp) mark
    have stuck : join mark (segment :: (front ++ (a ++ glue ++ b) :: back)) =
        segment ++ mark ++ join mark (front ++ (a ++ glue ++ b) :: back) := join_cons (by simp) mark
    rw [List.cons_append, List.cons_append, first, stuck, ← ih]
    simp only [List.append_assoc]

theorem join_padded (mark : Char) (pad segment : Text) (others : List Text) :
    join (mark :: pad) (segment :: others) =
      join [mark] (segment :: others.map (pad ++ ·)) := by
  induction others generalizing segment with
  | nil => rfl
  | cons next later ih =>
    have padded (text : Text) (rest : List Text) :
        join [mark] ((pad ++ text) :: rest) = pad ++ join [mark] (text :: rest) := by
      cases rest with
      | nil => rfl
      | cons _ _ => simp [join]
    simp [join, ih, padded]

end Stencil.Text
