import Stencil.Text.Basic

/-
The places of a mark in a text, as byte offsets in ascending order.
-/
namespace Stencil.Text

/-- The byte offsets at which a mark stands in a text that starts at a byte offset. -/
def marks (mark : Text) (start : Nat) : Text → List Nat
  | [] => []
  | c :: rest =>
    let later := marks mark (start + c.utf8Size) rest
    if mark.isPrefixOf (c :: rest) then start :: later else later

theorem mem_marks {mark : Text} (some : mark ≠ []) {start k : Nat} {text : Text} :
    k ∈ marks mark start text ↔
      ∃ before after, text = before ++ mark ++ after ∧ k = start + before.bytes := by
  induction text generalizing start with
  | nil =>
    simp only [marks, List.not_mem_nil, List.nil_eq, List.append_eq_nil_iff, false_iff]
    rintro ⟨before, after, ⟨⟨-, empty⟩, -⟩, -⟩
    exact some empty
  | cons c rest ih =>
    have here : k ∈ marks mark start (c :: rest) ↔
        (k = start ∧ mark <+: c :: rest) ∨ k ∈ marks mark (start + c.utf8Size) rest := by
      rw [marks, ← List.isPrefixOf_iff_prefix]
      split <;> simp_all
    rw [here, ih]
    constructor
    · rintro (⟨rfl, after, joined⟩ | ⟨before, after, rfl, rfl⟩)
      · exact ⟨[], after, joined.symm, rfl⟩
      · exact ⟨c :: before, after, rfl, by rw [bytes_cons, Nat.add_assoc]⟩
    · rintro ⟨before, after, joined, rfl⟩
      cases before with
      | nil => exact Or.inl ⟨rfl, after, joined.symm⟩
      | cons d before =>
        obtain ⟨rfl, rfl⟩ := List.cons.inj joined
        exact Or.inr ⟨before, after, rfl, by rw [bytes_cons, Nat.add_assoc]⟩

theorem marks_ge {mark : Text} {start k : Nat} {text : Text} (member : k ∈ marks mark start text) :
    start ≤ k := by
  induction text generalizing start with
  | nil => cases member
  | cons c rest ih =>
    rw [marks] at member
    split at member
    · rcases List.mem_cons.mp member with rfl | later
      · exact Nat.le_refl _
      · have := ih later
        omega
    · have := ih member
      omega

theorem marks_ascending (mark : Text) (start : Nat) (text : Text) :
    (marks mark start text).Pairwise (· < ·) := by
  induction text generalizing start with
  | nil => exact List.Pairwise.nil
  | cons c rest ih =>
    rw [marks]
    split
    · apply List.Pairwise.cons _ (ih _)
      intro k later
      have := marks_ge later
      have := Char.utf8Size_pos c
      omega
    · exact ih _

theorem marks_append (mark : Text) (start : Nat) (front text : Text) :
    ∃ early, marks mark start (front ++ text) = early ++ marks mark (start + front.bytes) text ∧
      ∀ k ∈ early, k < start + front.bytes := by
  induction front generalizing start with
  | nil => exact ⟨[], rfl, by simp⟩
  | cons c rest ih =>
    obtain ⟨early, same, before⟩ := ih (start + c.utf8Size)
    have positive := Char.utf8Size_pos c
    rw [List.cons_append, marks, same, bytes_cons, ← Nat.add_assoc]
    split
    · refine ⟨start :: early, rfl, ?_⟩
      intro k member
      rcases List.mem_cons.mp member with rfl | later
      · omega
      · exact before k later
    · exact ⟨early, rfl, before⟩

theorem find_of_least {offsets : List Nat} {p : Nat → Bool} {j : Nat}
    (ascending : offsets.Pairwise (· < ·)) (member : j ∈ offsets) (holds : p j)
    (least : ∀ k ∈ offsets, p k → j ≤ k) : offsets.find? p = some j := by
  induction offsets with
  | nil => cases member
  | cons k later ih =>
    obtain ⟨above, rest⟩ := List.pairwise_cons.mp ascending
    rcases List.mem_cons.mp member with rfl | inside
    · exact List.find?_cons_of_pos holds
    · have ahead := above j inside
      have skipped : ¬ p k := fun hit => by
        have := least k List.mem_cons_self hit
        omega
      rw [List.find?_cons_of_neg skipped]
      exact ih rest inside fun l within => least l (List.mem_cons_of_mem k within)

theorem getLast_of_greatest {offsets : List Nat} {j : Nat}
    (ascending : offsets.Pairwise (· < ·)) (member : j ∈ offsets)
    (greatest : ∀ k ∈ offsets, k ≤ j) : offsets.getLast? = some j := by
  obtain ⟨front, back, rfl⟩ := List.append_of_mem member
  cases back with
  | nil => exact List.getLast?_concat
  | cons k later =>
    have above := (List.pairwise_append.mp ascending).2.1
    have ahead := (List.pairwise_cons.mp above).1 k List.mem_cons_self
    have bound := greatest k (by simp)
    omega

theorem head_le {offsets : List Nat} {j k : Nat} (ascending : offsets.Pairwise (· < ·))
    (first : offsets.head? = some j) (member : k ∈ offsets) : j ≤ k := by
  obtain ⟨later, rfl⟩ := List.head?_eq_some_iff.mp first
  rcases List.mem_cons.mp member with rfl | behind
  · exact Nat.le_refl k
  · exact Nat.le_of_lt ((List.pairwise_cons.mp ascending).1 k behind)

theorem le_getLast {offsets : List Nat} {j k : Nat} (ascending : offsets.Pairwise (· < ·))
    (last : offsets.getLast? = some j) (member : k ∈ offsets) : k ≤ j := by
  obtain ⟨front, rfl⟩ := List.getLast?_eq_some_iff.mp last
  rcases List.mem_append.mp member with before | here
  · exact Nat.le_of_lt ((List.pairwise_append.mp ascending).2.2 k before j List.mem_cons_self)
  · exact Nat.le_of_eq (List.mem_singleton.mp here)

end Stencil.Text
