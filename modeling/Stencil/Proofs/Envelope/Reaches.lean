import Stencil.Proofs.Envelope.LineByLine

/-
The two reaches compared. They find envelopes on the same lines; the greedy reach joins all lazy
envelopes of a line to one, from the start of the first to the last close mark of the line. Where
the first lazy envelope ends there already, both reaches find the same.
-/
namespace Stencil

/-- Lines at their byte offsets, when the first stands at a given one. -/
def Text.placed (start : Nat) : List Text → List (Nat × Text)
  | [] => []
  | line :: lines => (start, line) :: placed (start + line.bytes + 1) lines

def Text.lines (text : Text) : List (Nat × Text) := placed 0 (text.split '\n')

namespace Envelope

def onLine (reach : Reach) (line : Nat × Text) : List (Nat × Nat) :=
  spans line.1 (cut reach line.2).1

/-- The last close mark of a line ends at an offset. -/
def LastClose (line : Nat × Text) (stop : Nat) : Prop :=
  ∃ j, (Text.marks closeMark line.1 line.2).getLast? = some j ∧ stop = j + 2

section Marks

variable {opens closes : List Nat} {cursor j : Nat} {first : Nat × Nat} {later : List (Nat × Nat)}

theorem greedySpans_of_lazy_nil (ahead : ∀ i ∈ opens, cursor ≤ i)
    (none : lazySpans closes cursor opens = []) : greedySpans opens closes = [] := by
  cases opens with
  | nil => rfl
  | cons i opens =>
    have inside := ahead i List.mem_cons_self
    rw [lazySpans, if_neg (by omega)] at none
    split at none
    · next absent =>
      rw [greedySpans]
      split
      · next first last opened closed =>
        obtain rfl := Option.some.inj opened
        have early := List.find?_eq_none.mp absent last (List.mem_of_getLast? closed)
        rw [if_neg (by simpa using early)]
      · rfl
    · cases none

theorem greedySpans_of_lazy_cons (ascending : closes.Pairwise (· < ·))
    (ahead : ∀ i ∈ opens, cursor ≤ i)
    (found : lazySpans closes cursor opens = first :: later) :
    opens.head? = some first.1 ∧
      ∃ j, closes.getLast? = some j ∧ greedySpans opens closes = [(first.1, j + 2)] := by
  cases opens with
  | nil => cases found
  | cons i opens =>
    have inside := ahead i List.mem_cons_self
    rw [lazySpans, if_neg (by omega)] at found
    split at found
    · cases found
    · next k next =>
      obtain ⟨rfl, -⟩ := List.cons.inj found
      have member := List.mem_of_find?_eq_some next
      have held := List.find?_some next
      have long : i + 4 ≤ k := of_decide_eq_true held
      have last := List.getLast?_eq_some_getLast (List.ne_nil_of_mem member)
      have behind := Text.le_getLast ascending last member
      refine ⟨rfl, _, last, ?_⟩
      rw [greedySpans, last]
      simp only [List.head?_cons]
      rw [if_pos (by omega)]

theorem lazySpans_covered (ascending : closes.Pairwise (· < ·)) (last : closes.getLast? = some j)
    {span : Nat × Nat} (member : span ∈ lazySpans closes cursor opens) : span.2 ≤ j + 2 := by
  obtain ⟨-, -, k, closed, -, stop⟩ := lazySpans_ends member
  have behind := Text.le_getLast ascending last closed
  omega

theorem lazySpans_resume (found : lazySpans closes cursor opens = first :: later) :
    ∃ rest, later = lazySpans closes first.2 rest := by
  fun_induction lazySpans closes cursor opens with
  | case1 => cases found
  | case2 cursor i opens behind ih => exact ih found
  | case3 => cases found
  | case4 cursor i opens ahead j next ih =>
    obtain ⟨rfl, rfl⟩ := List.cons.inj found
    exact ⟨opens, rfl⟩

theorem lazySpans_alone (ascending : closes.Pairwise (· < ·)) (last : closes.getLast? = some j)
    (found : lazySpans closes cursor opens = first :: later) (stop : first.2 = j + 2) :
    later = [] := by
  obtain ⟨rest, rfl⟩ := lazySpans_resume found
  rw [List.eq_nil_iff_forall_not_mem]
  intro span member
  obtain ⟨behind, -⟩ := lazySpans_ends member
  have long := lazySpans_long member
  have covered := lazySpans_covered ascending last member
  omega

end Marks

theorem placed_plain {start : Nat} {lines : List Text} (plain : ∀ line ∈ lines, '\n' ∉ line)
    {line : Nat × Text} (member : line ∈ Text.placed start lines) : '\n' ∉ line.2 := by
  induction lines generalizing start with
  | nil => cases member
  | cons text lines ih =>
    obtain ⟨here, others⟩ := List.forall_mem_cons.mp plain
    rcases List.mem_cons.mp member with rfl | later
    · exact here
    · exact ih others later

theorem lines_plain {text : Text} {line : Nat × Text} (member : line ∈ text.lines) :
    '\n' ∉ line.2 :=
  placed_plain (fun _ => Text.split_free) member

theorem linesSpans_placed (reach : Reach) (start : Nat) (lines : List Text) :
    linesSpans reach start lines =
      (Text.placed start lines).flatMap fun line => lineSpans reach line.1 line.2 := by
  induction lines generalizing start with
  | nil => rfl
  | cons line lines ih => rw [linesSpans, Text.placed, List.flatMap_cons, ih]

theorem spans_onLine (reach : Reach) (text : Text) :
    spans 0 (cut reach text).1 = text.lines.flatMap (onLine reach) := by
  rw [text_spans, linesSpans_placed]
  apply List.flatMap_congr
  intro line member
  exact (line_spans reach line.1 (lines_plain member)).symm

theorem onLine_lazy {line : Nat × Text} (plain : '\n' ∉ line.2) :
    onLine .lazy line = lazySpans (Text.marks closeMark line.1 line.2) line.1
      (Text.marks openMark line.1 line.2) :=
  line_spans .lazy line.1 plain

theorem onLine_greedy {line : Nat × Text} (plain : '\n' ∉ line.2) :
    onLine .greedy line = greedySpans (Text.marks openMark line.1 line.2)
      (Text.marks closeMark line.1 line.2) :=
  line_spans .greedy line.1 plain

theorem greedy_nil_of_lazy {line : Nat × Text} (plain : '\n' ∉ line.2)
    (none : onLine .lazy line = []) : onLine .greedy line = [] := by
  rw [onLine_lazy plain] at none
  rw [onLine_greedy plain]
  exact greedySpans_of_lazy_nil (fun i => Text.marks_ge) none

theorem greedy_joins {line : Nat × Text} (plain : '\n' ∉ line.2) {first : Nat × Nat}
    {later : List (Nat × Nat)} (found : onLine .lazy line = first :: later) :
    ∃ stop, LastClose line stop ∧ onLine .greedy line = [(first.1, stop)] ∧
      ∀ span ∈ onLine .lazy line, first.1 ≤ span.1 ∧ span.2 ≤ stop := by
  have ascending := Text.marks_ascending closeMark line.1 line.2
  rw [onLine_lazy plain] at found
  obtain ⟨head, j, last, joined⟩ :=
    greedySpans_of_lazy_cons ascending (fun i => Text.marks_ge) found
  refine ⟨j + 2, ⟨j, last, rfl⟩, by rw [onLine_greedy plain, joined], ?_⟩
  rw [onLine_lazy plain]
  intro span member
  refine ⟨?_, lazySpans_covered ascending last member⟩
  obtain ⟨-, opened, -⟩ := lazySpans_ends member
  exact Text.head_le (Text.marks_ascending openMark line.1 line.2) head opened

theorem greedy_iff_lazy {line : Nat × Text} (plain : '\n' ∉ line.2) :
    onLine .greedy line ≠ [] ↔ onLine .lazy line ≠ [] := by
  cases found : onLine .lazy line with
  | nil => simp [greedy_nil_of_lazy plain found]
  | cons first later =>
    obtain ⟨stop, -, joined, -⟩ := greedy_joins plain found
    simp [joined]

/-- A lazy envelope up to the last close mark leaves nothing to join. -/
theorem reaches_agree_onLine {line : Nat × Text} (plain : '\n' ∉ line.2)
    (whole : ∀ first later, onLine .lazy line = first :: later → LastClose line first.2) :
    onLine .greedy line = onLine .lazy line := by
  cases found : onLine .lazy line with
  | nil => exact greedy_nil_of_lazy plain found
  | cons first later =>
    obtain ⟨j, last, stop⟩ := whole first later found
    obtain ⟨other, ⟨k, same, rfl⟩, joined, -⟩ := greedy_joins plain found
    obtain rfl := Option.some.inj (last.symm.trans same)
    rw [onLine_lazy plain] at found
    rw [joined, lazySpans_alone (Text.marks_ascending closeMark line.1 line.2) last found stop,
      ← stop]

theorem count_lines (reach : Reach) (text : Text) :
    count reach text = (text.lines.flatMap (onLine reach)).length := by
  rw [count, ← spans_length 0, spans_onLine]

theorem joined_length {lines : List (Nat × Text)} (plain : ∀ line ∈ lines, '\n' ∉ line.2) :
    (lines.flatMap (onLine .greedy)).length =
      (lines.filter fun line => onLine .lazy line ≠ []).length := by
  induction lines with
  | nil => rfl
  | cons line lines ih =>
    obtain ⟨here, others⟩ := List.forall_mem_cons.mp plain
    rw [List.flatMap_cons, List.length_append, ih others]
    cases found : onLine .lazy line with
    | nil => simp [greedy_nil_of_lazy here found, found]
    | cons first later =>
      obtain ⟨stop, -, joined, -⟩ := greedy_joins here found
      simp [joined, found, Nat.add_comm]

theorem lines_at_most_envelopes (lines : List (Nat × Text)) :
    (lines.filter fun line => onLine .lazy line ≠ []).length ≤
      (lines.flatMap (onLine .lazy)).length := by
  induction lines with
  | nil => exact Nat.le_refl 0
  | cons line lines ih =>
    rw [List.flatMap_cons, List.length_append]
    cases found : onLine .lazy line with
    | nil => simpa [found] using ih
    | cons first later =>
      rw [List.filter_cons_of_pos (by simp [found]), List.length_cons, List.length_cons]
      omega

theorem cut_agree {text : Text}
    (same : ∀ line ∈ text.lines, onLine .greedy line = onLine .lazy line) :
    (cut .greedy text).1 = (cut .lazy text).1 := by
  apply pieces_unique ((assemble_cut .greedy text).trans (assemble_cut .lazy text).symm)
  rw [spans_onLine, spans_onLine]
  exact List.flatMap_congr same

end Envelope

open Envelope

theorem greedy_joins_lazy (text : Text) :
    (∀ reach, spans 0 (cut reach text).1 = text.lines.flatMap (onLine reach)) ∧
    (∀ line ∈ text.lines,
      (onLine .greedy line ≠ [] ↔ onLine .lazy line ≠ []) ∧
      ∀ first later, onLine .lazy line = first :: later →
        ∃ stop, LastClose line stop ∧ onLine .greedy line = [(first.1, stop)] ∧
          ∀ span ∈ onLine .lazy line, first.1 ≤ span.1 ∧ span.2 ≤ stop) ∧
    count .greedy text = (text.lines.filter fun line => onLine .lazy line ≠ []).length ∧
    count .greedy text ≤ count .lazy text ∧
    ((∀ line ∈ text.lines, ∀ first later, onLine .lazy line = first :: later →
        LastClose line first.2) →
      ∀ lenient, scan ⟨.greedy, lenient⟩ text = scan ⟨.lazy, lenient⟩ text) := by
  have joined : count .greedy text =
      (text.lines.filter fun line => onLine .lazy line ≠ []).length := by
    rw [count_lines, joined_length fun line => lines_plain]
  refine ⟨fun reach => spans_onLine reach text, ?_, joined, ?_, ?_⟩
  · intro line member
    have plain := lines_plain member
    exact ⟨greedy_iff_lazy plain, fun first later => greedy_joins plain⟩
  · rw [joined, count_lines]
    exact lines_at_most_envelopes text.lines
  · intro whole lenient
    have agree := cut_agree fun line member =>
      reaches_agree_onLine (lines_plain member) (whole line member)
    simp only [scan, agree]

theorem nested_and_overlapping_marks :
    let nested : Text := "$\x7b\x7b $\x7b\x7ba\x7d\x7d $\x7b\x7bb".toList
    let overlapping : Text := "$\x7b\x7b\x7d\x7d\x7d".toList
    let alike := nested ++ '\n' :: overlapping
    let joined : Text := "$\x7b\x7ba\x7d\x7d $\x7b\x7b\x7d\x7d\x7d\x7d".toList
    ((∀ line ∈ alike.lines, ∀ first later, onLine .lazy line = first :: later →
        LastClose line first.2) ∧
      count .lazy alike = 2 ∧ scan ⟨.greedy, false⟩ alike = scan ⟨.lazy, false⟩ alike) ∧
    onLine .lazy (0, joined) = [(0, 6), (7, 13)] ∧ LastClose (0, joined) 14 ∧
      onLine .greedy (0, joined) = [(0, 14)] := by
  intro nested overlapping alike joined
  have whole : ∀ line ∈ alike.lines, ∀ first later, onLine .lazy line = first :: later →
      LastClose line first.2 := by
    have lines : alike.lines = [(0, nested), (16, overlapping)] := by decide
    have ends : onLine .lazy (0, nested) = [(0, 10)] := by decide +kernel
    have behind : onLine .lazy (16, overlapping) = [(16, 22)] := by decide +kernel
    rw [lines, List.forall_mem_cons, List.forall_mem_singleton, ends, behind]
    constructor
    · rintro first later ⟨rfl⟩
      exact ⟨8, by decide, rfl⟩
    · rintro first later ⟨rfl⟩
      exact ⟨20, by decide, rfl⟩
  have parts : onLine .lazy (0, joined) = [(0, 6), (7, 13)] := by decide +kernel
  obtain ⟨-, -, -, -, agree⟩ := greedy_joins_lazy alike
  obtain ⟨-, each, -⟩ := greedy_joins_lazy joined
  obtain ⟨stop, ⟨j, last, rfl⟩, one, -⟩ := (each (0, joined) (by decide)).2 _ _ parts
  have known : (Text.marks closeMark 0 joined).getLast? = some 12 := by decide
  obtain rfl := Option.some.inj (known.symm.trans last)
  exact ⟨⟨whole, by decide +kernel, agree whole false⟩, parts, ⟨12, known, rfl⟩, one⟩

end Stencil
