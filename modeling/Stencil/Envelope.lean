import Stencil.Text.Basic

/-
An envelope is an open mark, at least one character, and a close mark, all on one line, where only
a line feed ends a line. A reach says at which of several close marks an envelope ends. A text is
cut into envelopes from left to right, so they do not overlap.
-/
namespace Stencil

/-- Whether an envelope runs to the last close mark on its line or stops at the first. -/
inductive Reach where
  | greedy
  | lazy
  deriving DecidableEq, Repr

def openMark : Text := ['$', '{', '{']

def closeMark : Text := ['}', '}']

namespace Envelope

def firstClose? : Text → Option (Text × Text)
  | [] => none
  | c :: rest =>
    match Text.after? closeMark (c :: rest) with
    | some after => some (closeMark, after)
    | none =>
      if c = '\n' then none
      else (firstClose? rest).map fun (body, after) => (c :: body, after)

def lastClose? : Text → Option (Text × Text)
  | [] => none
  | c :: rest =>
    if c = '\n' then none
    else match lastClose? rest with
      | some (body, after) => some (c :: body, after)
      | none => (Text.after? closeMark (c :: rest)).map fun after => (closeMark, after)

def close? : Reach → Text → Option (Text × Text)
  | .greedy => lastClose?
  | .lazy => firstClose?

def atStart? (reach : Reach) (text : Text) : Option (Text × Text) :=
  match Text.after? openMark text with
  | some (c :: rest) =>
    if c = '\n' then none
    else (close? reach rest).map fun (body, after) => (openMark ++ c :: body, after)
  | _ => none

structure Piece where
  gap : Text
  envelope : Text
  deriving DecidableEq, Repr

def first? (reach : Reach) : Text → Option (Piece × Text)
  | [] => none
  | c :: rest =>
    match atStart? reach (c :: rest) with
    | some (envelope, after) => some (⟨[], envelope⟩, after)
    | none =>
      (first? reach rest).map fun (piece, after) => (⟨c :: piece.gap, piece.envelope⟩, after)

theorem firstClose_joins {text body rest : Text} (found : firstClose? text = some (body, rest)) :
    text = body ++ rest := by
  induction text generalizing body with
  | nil => simp [firstClose?] at found
  | cons c tail ih =>
    rw [firstClose?] at found
    split at found
    · next after closed =>
      obtain ⟨rfl, rfl⟩ := Prod.mk.inj (Option.some.inj found)
      exact Text.after_eq_some.mp closed
    · split at found
      · cases found
      · obtain ⟨⟨inner, after⟩, deeper, same⟩ := Option.map_eq_some_iff.mp found
        obtain ⟨rfl, rfl⟩ := Prod.mk.inj same
        simp [ih deeper]

theorem lastClose_joins {text body rest : Text} (found : lastClose? text = some (body, rest)) :
    text = body ++ rest := by
  induction text generalizing body with
  | nil => simp [lastClose?] at found
  | cons c tail ih =>
    rw [lastClose?] at found
    split at found
    · cases found
    · split at found
      · next inner after deeper =>
        obtain ⟨rfl, rfl⟩ := Prod.mk.inj (Option.some.inj found)
        simp [ih deeper]
      · obtain ⟨after, closed, same⟩ := Option.map_eq_some_iff.mp found
        obtain ⟨rfl, rfl⟩ := Prod.mk.inj same
        exact Text.after_eq_some.mp closed

theorem close_joins {reach : Reach} {text body rest : Text}
    (found : close? reach text = some (body, rest)) : text = body ++ rest := by
  cases reach with
  | greedy => exact lastClose_joins found
  | lazy => exact firstClose_joins found

theorem atStart_joins {reach : Reach} {text envelope rest : Text}
    (found : atStart? reach text = some (envelope, rest)) :
    text = envelope ++ rest ∧ openMark.length < envelope.length := by
  unfold atStart? at found
  split at found
  · next c tail opened =>
    split at found
    · cases found
    · obtain ⟨⟨body, after⟩, closed, same⟩ := Option.map_eq_some_iff.mp found
      obtain ⟨rfl, rfl⟩ := Prod.mk.inj same
      rw [Text.after_eq_some.mp opened, close_joins closed]
      simp
  · cases found

theorem first_joins {reach : Reach} {text rest : Text} {piece : Piece}
    (found : first? reach text = some (piece, rest)) :
    text = piece.gap ++ piece.envelope ++ rest ∧ openMark.length < piece.envelope.length := by
  induction text generalizing piece with
  | nil => simp [first?] at found
  | cons c tail ih =>
    rw [first?] at found
    split at found
    · next envelope after here =>
      obtain ⟨rfl, rfl⟩ := Prod.mk.inj (Option.some.inj found)
      simpa using atStart_joins here
    · obtain ⟨⟨inner, after⟩, later, same⟩ := Option.map_eq_some_iff.mp found
      obtain ⟨rfl, rfl⟩ := Prod.mk.inj same
      obtain ⟨joined, long⟩ := ih later
      exact ⟨by simp [joined], long⟩

theorem first_shortens {reach : Reach} {text rest : Text} {piece : Piece}
    (found : first? reach text = some (piece, rest)) : rest.length < text.length := by
  obtain ⟨joined, long⟩ := first_joins found
  rw [joined]
  simp only [List.length_append]
  omega

/-- All envelopes with the gaps before them, and the text after the last. -/
def cut (reach : Reach) (text : Text) : List Piece × Text :=
  match found : first? reach text with
  | none => ([], text)
  | some (piece, rest) =>
    have := first_shortens found
    let (pieces, tail) := cut reach rest
    (piece :: pieces, tail)
termination_by text.length

def count (reach : Reach) (text : Text) : Nat := (cut reach text).1.length

/-- Whether a text holds an envelope. Both reaches agree on that. -/
def isIn (text : Text) : Bool := (first? .greedy text).isSome

def assemble (pieces : List Piece) (tail : Text) : Text :=
  pieces.flatMap (fun piece => piece.gap ++ piece.envelope) ++ tail

theorem assemble_cut (reach : Reach) (text : Text) :
    assemble (cut reach text).1 (cut reach text).2 = text := by
  fun_induction cut reach text with
  | case1 => rfl
  | case2 text piece rest found _ pieces tail step ih =>
    simp only [step, assemble] at ih
    simp only [assemble, List.flatMap_cons, List.append_assoc, ih]
    rw [← List.append_assoc, ← (first_joins found).1]

-- The marks alone are no envelope, but a third brace is a character between them.
example : isIn (openMark ++ closeMark) = false ∧ isIn (openMark ++ '}' :: closeMark) = true := by
  decide

end Envelope
end Stencil
