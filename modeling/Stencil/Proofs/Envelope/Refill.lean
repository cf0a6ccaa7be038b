import Stencil.Proofs.Envelope.Ends
import Stencil.Proofs.Envelope.Lines

/-
Other texts in the places of the envelopes. What stands on either side of a joint could now form an
envelope that was not there before. A text without a closing brace leaves the greedy search without
a close mark, and a text that neither starts nor ends an open mark leaves the lazy search without an
open mark, so that after either there is no envelope left.
-/
namespace Stencil.Envelope

def put (pieces : List Piece) (values : List Text) : List Piece :=
  List.zipWith (fun piece value => ⟨piece.gap, value⟩) pieces values

def refill (reach : Reach) (text : Text) (values : List Text) : Text :=
  assemble (put (cut reach text).1 values) (cut reach text).2

/-- A text that forms no envelope with the gaps around it. -/
def Harmless : Reach → Text → Prop
  | .greedy, value => '}' ∉ value
  | .lazy, value => value ≠ [] ∧ '$' ∉ value ∧ '{' ∉ value

instance : (reach : Reach) → (value : Text) → Decidable (Harmless reach value)
  | .greedy, value => inferInstanceAs (Decidable ('}' ∉ value))
  | .lazy, value => inferInstanceAs (Decidable (value ≠ [] ∧ '$' ∉ value ∧ '{' ∉ value))

theorem refill_of_none {reach : Reach} {text : Text} (absent : first? reach text = none)
    (values : List Text) : refill reach text values = text := by
  rw [refill, cut_of_none absent]
  rfl

theorem refill_of_some {reach : Reach} {text rest : Text} {piece : Piece}
    (found : first? reach text = some (piece, rest)) (value : Text) (values : List Text) :
    refill reach text (value :: values) = piece.gap ++ value ++ refill reach rest values := by
  rw [refill, cut_of_some found, put, List.zipWith_cons_cons, assemble_cons]
  rfl

theorem closes_append_line (a b : Text) : Closes (a ++ '\n' :: b) ↔ Closes a := by
  rw [← lastClose_isSome, ← lastClose_isSome, lastClose_append_line, Option.isSome_map]

theorem starts_append_line (a b : Text) : Starts (a ++ '\n' :: b) ↔ Starts a := by
  rw [← atStart_isSome .greedy, ← atStart_isSome .greedy, atStart_append_line, Option.isSome_map]

theorem starts_append {a : Text} (starts : Starts a) (b : Text) : Starts (a ++ b) := by
  obtain ⟨body, rest, rfl, some, line⟩ := starts
  exact ⟨body, rest ++ b, by simp, some, line⟩

theorem holds_append {a b : Text} (held : Holds (a ++ b)) :
    Holds b ∨ ∃ early late, a = early ++ late ∧ late ≠ [] ∧ Starts (late ++ b) := by
  obtain ⟨before, rest, joined, starts⟩ := held
  rcases List.append_eq_append_iff.mp joined with ⟨mid, rfl, rfl⟩ | ⟨late, rfl, rfl⟩
  · exact Or.inl ⟨mid, rest, rfl, starts⟩
  · by_cases empty : late = []
    · subst empty
      exact Or.inl ⟨[], b, rfl, starts⟩
    · exact Or.inr ⟨before, late, rfl, empty, starts⟩

theorem first_gap {reach : Reach} {text rest early late : Text} {piece : Piece}
    (found : first? reach text = some (piece, rest)) (parted : piece.gap = early ++ late)
    (some : late ≠ []) : ¬ Starts (late ++ (piece.envelope ++ rest)) := by
  induction text generalizing piece early with
  | nil => cases found
  | cons c tail ih =>
    rw [first?] at found
    split at found
    · obtain ⟨rfl, rfl⟩ := Prod.mk.inj (Option.some.inj found)
      exact absurd (List.append_eq_nil_iff.mp parted.symm).2 some
    · next elsewhere =>
      obtain ⟨⟨inner, after⟩, later, same⟩ := Option.map_eq_some_iff.mp found
      obtain ⟨rfl, rfl⟩ := Prod.mk.inj same
      cases early with
      | nil =>
        have whole : late ++ (inner.envelope ++ after) = c :: tail := by
          rw [(first_joins later).1, ← List.nil_append late, ← parted]
          simp
        rw [whole, ← atStart_isSome reach, elsewhere]
        exact Bool.false_ne_true
      | cons d early =>
        have deeper := ih later (List.cons.inj parted).2
        exact deeper

theorem first_gap_lacks {reach : Reach} {text rest : Text} {piece : Piece}
    (found : first? reach text = some (piece, rest)) : ¬ Holds piece.gap := by
  intro held
  obtain ⟨early, late, parted, starts⟩ := held
  have some : late ≠ [] := by
    obtain ⟨body, after, rfl, -, -⟩ := starts
    simp [openMark]
  exact first_gap found parted some (starts_append starts _)

theorem lastClose_end {text body rest : Text} (found : lastClose? text = some (body, rest)) :
    ¬ Closes ('}' :: rest) := by
  induction text generalizing body with
  | nil => cases found
  | cons c tail ih =>
    rw [lastClose?] at found
    split at found
    · cases found
    · split at found
      · next inner after deeper =>
        obtain ⟨rfl, rfl⟩ := Prod.mk.inj (Option.some.inj found)
        exact ih deeper
      · next nothing =>
        obtain ⟨after, closed, same⟩ := Option.map_eq_some_iff.mp found
        obtain ⟨rfl, rfl⟩ := Prod.mk.inj same
        have behind : tail = '}' :: after := (List.cons.inj (Text.after_eq_some.mp closed)).2
        rw [← behind, ← lastClose_isSome, nothing]
        exact Bool.false_ne_true

theorem greedy_end {envelope rest : Text}
    (found : atStart? .greedy (envelope ++ rest) = some (envelope, rest)) :
    ¬ Closes ('}' :: rest) := by
  obtain ⟨c, body, -, -, closed⟩ := atStart_some found
  exact lastClose_end closed

theorem closes_of_cut {stem a mid : Text} (line : '\n' ∉ stem) (some : mid ≠ [])
    (joined : stem ++ closeMark = a ++ mid) (rest : Text) : Closes ('}' :: (mid ++ rest)) := by
  rcases List.append_eq_append_iff.mp joined with ⟨inner, -, close⟩ | ⟨inner, rfl, rfl⟩
  · match inner, close with
    | [], close =>
      obtain rfl : closeMark = mid := close
      exact ⟨['}'], rest, rfl, by decide⟩
    | [_], close =>
      obtain rfl := (List.cons.inj close).2
      exact ⟨[], rest, rfl, List.not_mem_nil⟩
    | _ :: _ :: _, close =>
      simp only [closeMark, List.cons_append, List.cons.injEq] at close
      exact absurd (List.append_eq_nil_iff.mp close.2.2.symm).2 some
  · have plain : '\n' ∉ inner := fun member => line (List.mem_append_right a member)
    exact ⟨'}' :: inner, rest, by simp, by simp [plain]⟩

/-- The close mark of an envelope cannot reach into a text that does not close behind a brace. -/
theorem starts_unclosed {a b : Text} (unclosed : ¬ Closes ('}' :: b)) (starts : Starts (a ++ b)) :
    Starts a := by
  obtain ⟨body, rest, joined, some, line⟩ := starts
  rcases List.append_eq_append_iff.mp joined with ⟨mid, shorter, rfl⟩ | ⟨mid, rfl, -⟩
  · by_cases empty : mid = []
    · subst empty
      exact ⟨body, [], by simp [shorter], some, line⟩
    · have plain : '\n' ∉ openMark ++ body := by simp [openMark, line]
      exact absurd (closes_of_cut plain empty shorter rest) unclosed
  · exact ⟨body, mid, rfl, some, line⟩

theorem holds_unclosed {a b : Text} (lacks : ¬ Holds b) (unclosed : ¬ Closes ('}' :: b))
    (held : Holds (a ++ b)) : Holds a := by
  rcases holds_append held with later | ⟨early, late, rfl, -, starts⟩
  · exact absurd later lacks
  · exact ⟨early, late, rfl, starts_unclosed unclosed starts⟩

theorem braceless_unclosed {value : Text} (free : '}' ∉ value) :
    ¬ Closes ('}' :: value) ∧ ¬ Holds value := by
  constructor
  · intro closes
    obtain ⟨stem, rest, joined, -⟩ := closes
    apply free
    cases stem with
    | nil => simp [(List.cons.inj joined).2]
    | cons c stem => simp [(List.cons.inj joined).2, closeMark]
  · intro held
    obtain ⟨before, -, rfl, body, rest, rfl, -, -⟩ := held
    exact free (by simp [closeMark])

theorem closes_put {reach : Reach} {tail : Text} {pieces : List Piece} {values : List Text}
    (anchored : Anchored reach tail pieces) (count : values.length = pieces.length)
    (closes : Closes ('}' :: assemble (put pieces values) tail)) :
    Closes ('}' :: assemble pieces tail) := by
  cases pieces with
  | nil => exact closes
  | cons piece pieces =>
    cases values with
    | nil => cases count
    | cons value values =>
      rw [assemble_cons]
      by_cases feed : '\n' ∈ piece.gap
      -- up to the first line feed both texts are the same
      · obtain ⟨front, back, parted⟩ := List.append_of_mem feed
        rw [put, List.zipWith_cons_cons, assemble_cons] at closes
        simp only [parted, List.append_assoc, List.cons_append] at closes ⊢
        rw [← List.cons_append, closes_append_line] at closes ⊢
        exact closes
      · obtain ⟨body, rest, opened, -, line⟩ :=
          (atStart_isSome reach).mp (Option.isSome_of_eq_some anchored.1)
        refine ⟨'}' :: piece.gap ++ openMark ++ body, rest, ?_, ?_⟩
        · simp only [List.append_assoc] at opened
          simp [opened]
        · simp [openMark, feed, line]

theorem unclosed_behind {text rest : Text} {piece : Piece} {values : List Text}
    (found : first? .greedy text = some (piece, rest))
    (count : values.length = (cut .greedy rest).1.length) :
    ¬ Closes ('}' :: refill .greedy rest values) := by
  intro closes
  have before := closes_put (cut_anchored .greedy rest) count closes
  rw [assemble_cut] at before
  exact greedy_end (first_anchored found) before

theorem greedy_step {text rest value ahead : Text} {piece : Piece}
    (found : first? .greedy text = some (piece, rest)) (free : '}' ∉ value)
    (unclosed : ¬ Closes ('}' :: ahead)) (lacks : ¬ Holds ahead) :
    ¬ Holds (piece.gap ++ value ++ ahead) := by
  intro held
  obtain ⟨valueUnclosed, valueLacks⟩ := braceless_unclosed free
  have before := holds_unclosed lacks unclosed held
  exact first_gap_lacks found (holds_unclosed valueLacks valueUnclosed before)

theorem open_before_value {late value ahead : Text} (some : late ≠ []) (filled : value ≠ [])
    (brace : '{' ∉ value) (starts : Starts (late ++ (value ++ ahead))) :
    ∃ inner, late = openMark ++ inner := by
  obtain ⟨body, after, joined, -, -⟩ := starts
  simp only [List.append_assoc] at joined
  match late, some, value, filled with
  | [_], _, c :: _, _ =>
    simp only [openMark, List.cons_append, List.nil_append, List.cons.injEq] at joined
    simp [joined.2.1] at brace
  | [_, _], _, c :: _, _ =>
    simp only [openMark, List.cons_append, List.nil_append, List.cons.injEq] at joined
    simp [joined.2.2.1] at brace
  | _ :: _ :: _ :: inner, _, _, _ =>
    simp only [openMark, List.cons_append, List.nil_append, List.cons.injEq] at joined
    obtain ⟨rfl, rfl, rfl, -⟩ := joined
    exact ⟨inner, rfl⟩

theorem gap_starts {inner envelope rest ahead : Text} (starts : Starts (envelope ++ rest))
    (silent : ¬ Starts (openMark ++ inner ++ (envelope ++ rest))) :
    ¬ Starts (openMark ++ inner ++ ahead) := by
  by_cases feed : '\n' ∈ inner
  -- on an earlier line: closed, if at all, inside the gap
  · obtain ⟨front, back, rfl⟩ := List.append_of_mem feed
    have line (behind : Text) : Starts (openMark ++ (front ++ '\n' :: back) ++ behind) ↔
        Starts (openMark ++ front) := by
      have parted : openMark ++ (front ++ '\n' :: back) ++ behind =
          (openMark ++ front) ++ '\n' :: (back ++ behind) := by simp
      rw [parted, starts_append_line]
    rw [line] at silent ⊢
    exact silent
  -- on the line of the envelope, which would have started at this mark
  · obtain ⟨body, after, opened, -, line⟩ := starts
    apply absurd _ silent
    refine ⟨inner ++ openMark ++ body, after, by simp [opened], ?_, ?_⟩
    · simp [openMark]
    · simp [openMark, feed, line]

theorem lazy_step {text rest value ahead : Text} {piece : Piece}
    (found : first? .lazy text = some (piece, rest)) (harmless : Harmless .lazy value)
    (lacks : ¬ Holds ahead) : ¬ Holds (piece.gap ++ value ++ ahead) := by
  obtain ⟨filled, dollar, brace⟩ := harmless
  intro held
  rw [List.append_assoc] at held
  rcases holds_append held with later | ⟨early, late, parted, some, starts⟩
  · rcases holds_append later with behind | ⟨front, back, rfl, nonempty, starts⟩
    · exact lacks behind
    · obtain ⟨body, after, opened, -, -⟩ := starts
      cases back with
      | nil => exact nonempty rfl
      | cons c back =>
        obtain rfl : c = '$' := (List.cons.inj opened).1
        exact dollar (by simp)
  · have anchored := first_anchored found
    have opens := (atStart_isSome .lazy).mp (Option.isSome_of_eq_some anchored)
    have silent := first_gap found parted some
    obtain ⟨inner, rfl⟩ := open_before_value some filled brace starts
    exact gap_starts opens silent starts

theorem refill_lacks {reach : Reach} {text : Text} {values : List Text}
    (count : values.length = (cut reach text).1.length)
    (harmless : ∀ value ∈ values, Harmless reach value) : ¬ Holds (refill reach text values) := by
  -- on the pieces: no envelope behind a piece's place means none from its gap on
  fun_induction cut reach text generalizing values with
  | case1 text absent =>
    rw [refill_of_none absent, ← first_isSome reach, absent]
    exact Bool.false_ne_true
  | case2 text piece rest found _ pieces tail step ih =>
    cases values with
    | nil => cases count
    | cons value values =>
      obtain ⟨here, others⟩ := List.forall_mem_cons.mp harmless
      rw [step] at ih
      have lacks := ih (Nat.succ.inj count) others
      rw [refill_of_some found]
      cases reach with
      | greedy =>
        have same : values.length = (cut .greedy rest).1.length := by simpa [step] using count
        exact greedy_step found here (unclosed_behind found same) lacks
      | lazy => exact lazy_step found here lacks

-- A text that vanishes lets what stood around it meet.
example : refill .lazy "$$\x7b\x7ba\x7d\x7d\x7b\x7bb\x7d\x7d".toList [[]] =
    "$\x7b\x7bb\x7d\x7d".toList := by decide +kernel

end Stencil.Envelope
