import Stencil.Envelope
import Stencil.Proofs.Text.Parts

/-
Where a text has an envelope does not depend on the reach: some open mark is followed on its line by
a character and then a close mark. The reach only says which close mark ends it.
-/
namespace Stencil.Envelope

/-- A close mark follows on the line. -/
def Closes (text : Text) : Prop :=
  ∃ stem rest : Text, text = stem ++ closeMark ++ rest ∧ '\n' ∉ stem

def Starts (text : Text) : Prop :=
  ∃ body rest : Text, text = openMark ++ body ++ closeMark ++ rest ∧ body ≠ [] ∧ '\n' ∉ body

def Holds (text : Text) : Prop := ∃ before rest : Text, text = before ++ rest ∧ Starts rest

theorem closes_cons {c : Char} {rest : Text} :
    Closes (c :: rest) ↔
      (∃ after, Text.after? closeMark (c :: rest) = some after) ∨ c ≠ '\n' ∧ Closes rest := by
  constructor
  · rintro ⟨stem, after, joined, line⟩
    cases stem with
    | nil => exact Or.inl ⟨after, Text.after_eq_some.mpr joined⟩
    | cons d stem =>
      obtain ⟨rfl, rfl⟩ := List.cons.inj joined
      simp only [List.mem_cons, not_or] at line
      exact Or.inr ⟨Ne.symm line.1, stem, after, rfl, line.2⟩
  · rintro (⟨after, found⟩ | ⟨plain, stem, after, rfl, line⟩)
    · exact ⟨[], after, Text.after_eq_some.mp found, List.not_mem_nil⟩
    · exact ⟨c :: stem, after, rfl, by simp [Ne.symm plain, line]⟩

theorem firstClose_isSome {text : Text} : (firstClose? text).isSome ↔ Closes text := by
  induction text with
  | nil => simp [firstClose?, Closes, closeMark]
  | cons c rest ih =>
    rw [closes_cons, ← ih, firstClose?]
    cases Text.after? closeMark (c :: rest) with
    | some after => simp
    | none => by_cases feed : c = '\n' <;> simp [feed]

theorem lastClose_isSome {text : Text} : (lastClose? text).isSome ↔ Closes text := by
  induction text with
  | nil => simp [lastClose?, Closes, closeMark]
  | cons c rest ih =>
    rw [closes_cons, ← ih, lastClose?]
    by_cases feed : c = '\n'
    · simp [feed, Text.after?, closeMark]
    · cases lastClose? rest with
      | some found => simp [feed]
      | none => simp [feed, Option.isSome_iff_exists]

theorem close_isSome (reach : Reach) {text : Text} : (close? reach text).isSome ↔ Closes text := by
  cases reach with
  | greedy => exact lastClose_isSome
  | lazy => exact firstClose_isSome

theorem atStart_open (reach : Reach) {c : Char} (plain : c ≠ '\n') (rest : Text) :
    atStart? reach (openMark ++ c :: rest) =
      (close? reach rest).map fun (body, after) => (openMark ++ c :: body, after) := by
  rw [atStart?, Text.after_mark]
  simp [plain]

theorem atStart_isSome (reach : Reach) {text : Text} :
    (atStart? reach text).isSome ↔ Starts text := by
  constructor
  · intro found
    unfold atStart? at found
    split at found
    · next c rest opened =>
      split at found
      · cases found
      · next plain =>
        rw [Option.isSome_map, close_isSome] at found
        obtain ⟨stem, after, rfl, line⟩ := found
        refine ⟨c :: stem, after, ?_, List.cons_ne_nil c stem, by simp [Ne.symm plain, line]⟩
        simpa using Text.after_eq_some.mp opened
    · cases found
  · rintro ⟨body, rest, rfl, some, line⟩
    cases body with
    | nil => exact absurd rfl some
    | cons c stem =>
      simp only [List.mem_cons, not_or] at line
      have split : openMark ++ c :: stem ++ closeMark ++ rest =
          openMark ++ c :: (stem ++ closeMark ++ rest) := by simp
      rw [split, atStart_open reach (Ne.symm line.1), Option.isSome_map, close_isSome]
      exact ⟨stem, rest, rfl, line.2⟩

theorem holds_cons {c : Char} {rest : Text} :
    Holds (c :: rest) ↔ Starts (c :: rest) ∨ Holds rest := by
  constructor
  · rintro ⟨before, after, joined, starts⟩
    cases before with
    | nil => exact Or.inl (joined ▸ starts)
    | cons d before => exact Or.inr ⟨before, after, (List.cons.inj joined).2, starts⟩
  · rintro (starts | ⟨before, after, rfl, starts⟩)
    · exact ⟨[], c :: rest, rfl, starts⟩
    · exact ⟨c :: before, after, rfl, starts⟩

theorem first_isSome (reach : Reach) {text : Text} : (first? reach text).isSome ↔ Holds text := by
  induction text with
  | nil => simp [first?, Holds, Starts, openMark]
  | cons c rest ih =>
    rw [holds_cons, ← ih, first?, ← atStart_isSome reach]
    cases atStart? reach (c :: rest) with
    | some found => simp
    | none => simp

theorem isIn_iff {text : Text} : isIn text ↔ Holds text := first_isSome .greedy

theorem count_pos (reach : Reach) {text : Text} : 0 < count reach text ↔ Holds text := by
  rw [← first_isSome reach, count, cut]
  split
  · next absent => simp [absent]
  · next piece rest found => simp [found]

end Stencil.Envelope
