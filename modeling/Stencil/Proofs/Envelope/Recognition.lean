import Stencil.Proofs.Envelope.Lines
import Stencil.Proofs.Envelope.Search

/-
When a search finds just the envelope that was put into a text: the text before it has no open mark,
and no other close mark would end it. A mark cannot form across the joint with a gap, since no end
of an open mark starts one.
-/
namespace Stencil.Envelope

theorem atStart_none {reach : Reach} {text : Text} (unopened : ¬ openMark <+: text) :
    atStart? reach text = none := by
  rw [← Option.not_isSome_iff_eq_none, atStart_isSome]
  rintro ⟨body, rest, rfl, -, -⟩
  exact unopened (by simp)

theorem cut_of_not_holds {reach : Reach} {text : Text} (lacks : ¬ Holds text) :
    cut reach text = ([], text) := by
  apply cut_of_none
  rwa [← Option.not_isSome_iff_eq_none, first_isSome]

theorem cut_unopened {reach : Reach} {text : Text} (unopened : ¬ openMark <:+: text) :
    cut reach text = ([], text) := by
  apply cut_of_not_holds
  rintro ⟨before, -, rfl, body, rest, rfl, -, -⟩
  exact unopened ⟨before, body ++ closeMark ++ rest, by simp⟩

theorem cut_unclosed {reach : Reach} {text : Text} (unclosed : ¬ closeMark <:+: text) :
    cut reach text = ([], text) := by
  apply cut_of_not_holds
  rintro ⟨before, -, rfl, body, rest, rfl, -, -⟩
  exact unclosed ⟨before ++ openMark ++ body, rest, by simp⟩

theorem open_before_joint {front rest : Text} (some : front ≠ [])
    (opened : openMark <+: front ++ (openMark ++ rest)) : openMark <+: front := by
  match front, some with
  | [c], _ => simp [openMark] at opened
  | [c, d], _ => simp [openMark] at opened
  | c :: d :: e :: later, _ =>
    simp only [openMark, List.cons_append, List.cons_prefix_cons] at opened ⊢
    obtain ⟨first, second, third, -⟩ := opened
    exact ⟨first, second, third, List.nil_prefix⟩

theorem first_at_start {reach : Reach} {text envelope rest : Text}
    (found : atStart? reach text = some (envelope, rest)) :
    first? reach text = some (⟨[], envelope⟩, rest) := by
  cases text with
  | nil => cases found
  | cons c tail => rw [first?, found]

theorem first_after_gap {reach : Reach} {gap envelope rest : Text}
    (unopened : ¬ openMark <:+: gap)
    (found : atStart? reach (envelope ++ rest) = some (envelope, rest)) :
    first? reach (gap ++ (envelope ++ rest)) = some (⟨gap, envelope⟩, rest) := by
  obtain ⟨body, after, opened, -, -⟩ := (atStart_isSome reach).mp (Option.isSome_of_eq_some found)
  induction gap with
  | nil => exact first_at_start found
  | cons c gap ih =>
    have closed : atStart? reach (c :: gap ++ (envelope ++ rest)) = none := by
      apply atStart_none
      intro mark
      apply unopened
      rw [opened, List.append_assoc, List.append_assoc] at mark
      exact (open_before_joint (List.cons_ne_nil c gap) mark).isInfix
    have later := ih fun inside => unopened (List.infix_cons inside)
    rw [List.cons_append, first?, ← List.cons_append, closed, later]
    rfl

theorem lastClose_of_stem {stem after : Text} (line : '\n' ∉ stem)
    (unclosed : ¬ closeMark <:+: after) (apart : after.head? ≠ some '}') :
    lastClose? (stem ++ (closeMark ++ after)) = some (stem ++ closeMark, after) := by
  have later : lastClose? after = none := by
    rw [← Option.not_isSome_iff_eq_none, lastClose_isSome]
    rintro ⟨before, rest, rfl, -⟩
    exact unclosed ⟨before, rest, rfl⟩
  induction stem with
  | nil =>
    have inner : lastClose? ('}' :: after) = none := by
      rw [lastClose?, later]
      cases after with
      | nil => rfl
      | cons c rest =>
        have other : '}' ≠ c := by
          rintro rfl
          exact apart rfl
        simp [Text.after?, closeMark, other]
    simp only [closeMark, List.nil_append, List.cons_append] at *
    rw [lastClose?, inner]
    simp [Text.after?, closeMark]
  | cons c stem ih =>
    simp only [List.mem_cons, not_or] at line
    rw [List.cons_append, lastClose?, if_neg (Ne.symm line.1), ih line.2]
    rfl

theorem firstClose_of_stem {stem : Text} (line : '\n' ∉ stem) (unclosed : ¬ closeMark <:+: stem)
    (apart : stem.getLast? ≠ some '}') (rest : Text) :
    firstClose? (stem ++ (closeMark ++ rest)) = some (stem ++ closeMark, rest) := by
  induction stem with
  | nil => simp [firstClose?, Text.after?, closeMark]
  | cons c stem ih =>
    simp only [List.mem_cons, not_or] at line
    have elsewhere : Text.after? closeMark (c :: stem ++ (closeMark ++ rest)) = none := by
      rw [Option.eq_none_iff_forall_ne_some]
      intro after found
      have marked := Text.after_eq_some.mp found
      cases stem with
      | nil =>
        simp only [closeMark, List.cons_append, List.nil_append, List.cons.injEq] at marked
        exact apart (by rw [marked.1]; rfl)
      | cons d stem =>
        simp only [closeMark, List.cons_append, List.nil_append, List.cons.injEq] at marked
        obtain ⟨rfl, rfl, -⟩ := marked
        exact unclosed ⟨[], stem, rfl⟩
    have later := ih line.2
      (fun inside => unclosed (List.infix_cons inside))
      (fun last => apart (by rw [List.getLast?_cons, last]; rfl))
    rw [List.cons_append, firstClose?, ← List.cons_append, elsewhere]
    simp only
    rw [if_neg (Ne.symm line.1), later]
    rfl

theorem atStart_marked {reach : Reach} {c : Char} {stem rest : Text} (plain : c ≠ '\n')
    (closed : close? reach (stem ++ (closeMark ++ rest)) = some (stem ++ closeMark, rest)) :
    atStart? reach (openMark ++ c :: stem ++ closeMark ++ rest) =
      some (openMark ++ c :: stem ++ closeMark, rest) := by
  have whole : openMark ++ c :: stem ++ closeMark ++ rest =
      openMark ++ c :: (stem ++ (closeMark ++ rest)) := by simp
  rw [whole, atStart_open reach plain, closed]
  simp

/-- What follows does not extend a greedy envelope, whatever marks are inside. -/
theorem greedy_marked {inner after : Text} (some : inner ≠ []) (line : '\n' ∉ inner)
    (unclosed : ¬ closeMark <:+: after) (apart : after.head? ≠ .some '}') :
    atStart? .greedy (openMark ++ inner ++ closeMark ++ after) =
      .some (openMark ++ inner ++ closeMark, after) := by
  obtain ⟨c, stem, rfl⟩ := List.exists_cons_of_ne_nil some
  simp only [List.mem_cons, not_or] at line
  exact atStart_marked (Ne.symm line.1) (lastClose_of_stem line.2 unclosed apart)

/-- What is inside does not end a lazy envelope, whatever marks follow. -/
theorem lazy_marked {inner : Text} (some : inner ≠ []) (line : '\n' ∉ inner)
    (unclosed : ¬ closeMark <:+: inner) (apart : inner.getLast? ≠ .some '}') (rest : Text) :
    atStart? .lazy (openMark ++ inner ++ closeMark ++ rest) =
      .some (openMark ++ inner ++ closeMark, rest) := by
  obtain ⟨c, stem, rfl⟩ := List.exists_cons_of_ne_nil some
  simp only [List.mem_cons, not_or] at line
  refine atStart_marked (Ne.symm line.1) (firstClose_of_stem line.2 ?_ ?_ rest)
  · intro inside
    exact unclosed (List.infix_cons inside)
  · intro last
    exact apart (by rw [List.getLast?_cons, last]; rfl)

theorem cut_line {inner : Text} (some : inner ≠ []) (line : '\n' ∉ inner) :
    cut .greedy (openMark ++ inner ++ closeMark) =
      ([⟨[], openMark ++ inner ++ closeMark⟩], []) := by
  have whole := @greedy_marked inner [] some line (by decide) (by decide)
  rw [List.append_nil] at whole
  rw [cut_of_some (first_at_start whole), cut_of_none rfl]

end Stencil.Envelope
