import Mathlib.Data.List.Infix
import Stencil.Proofs.Envelope.Anchor
import Stencil.Proofs.Envelope.Ends
import Stencil.Proofs.Scan.Occurrences

/-
The envelopes of a text, found line by line from the places of the marks alone: with the greedy
reach from the first open mark of a line to its last close mark, with the lazy reach from each open
mark to the next close mark. The leftmost search finds the same.
-/
namespace Stencil.Envelope

def greedySpans (opens closes : List Nat) : List (Nat × Nat) :=
  match opens.head?, closes.getLast? with
  | some i, some j => if i + 4 ≤ j then [(i, j + 2)] else []
  | _, _ => []

/-- Open marks before the cursor lie inside the envelope that ends there. -/
def lazySpans (closes : List Nat) (cursor : Nat) : List Nat → List (Nat × Nat)
  | [] => []
  | i :: opens =>
    if i < cursor then lazySpans closes cursor opens
    else match closes.find? (i + 4 ≤ ·) with
      | none => []
      | some j => (i, j + 2) :: lazySpans closes (j + 2) opens

def lineSpans (reach : Reach) (start : Nat) (line : Text) : List (Nat × Nat) :=
  let opens := Text.marks openMark start line
  let closes := Text.marks closeMark start line
  match reach with
  | .greedy => greedySpans opens closes
  | .lazy => lazySpans closes start opens

/-- The spans of consecutive lines, with a line feed of one byte after each. -/
def linesSpans (reach : Reach) (start : Nat) : List Text → List (Nat × Nat)
  | [] => []
  | line :: lines => lineSpans reach start line ++ linesSpans reach (start + line.bytes + 1) lines

theorem opens_of_first {reach : Reach} {text rest : Text} {piece : Piece} (line : '\n' ∉ text)
    (found : first? reach text = some (piece, rest)) (start : Nat) :
    ∃ early, Text.marks openMark start text =
        (start + piece.gap.bytes) ::
          (early ++ Text.marks openMark (start + piece.gap.bytes + piece.envelope.bytes) rest) ∧
      ∀ i ∈ early, i < start + piece.gap.bytes + piece.envelope.bytes := by
  obtain ⟨c, body, shape, -⟩ := atStart_some (first_anchored found)
  obtain ⟨early, same, before⟩ := Text.marks_append openMark
    (start + piece.gap.bytes + Char.utf8Size '$') ('{' :: '{' :: c :: body) rest
  have width : start + piece.gap.bytes + Char.utf8Size '$' +
      Text.bytes ('{' :: '{' :: c :: body) = start + piece.gap.bytes + piece.envelope.bytes := by
    rw [shape]
    simp only [openMark, List.cons_append, List.nil_append, Text.bytes_cons]
    omega
  rw [width] at same before
  refine ⟨early, ?_, before⟩
  rw [opens_from_first line found start, ← same, shape]
  simp [openMark, Text.marks]

theorem lazySpans_skip {closes early later : List Nat} {cursor : Nat}
    (behind : ∀ i ∈ early, i < cursor) :
    lazySpans closes cursor (early ++ later) = lazySpans closes cursor later := by
  induction early with
  | nil => rfl
  | cons i early ih =>
    obtain ⟨here, others⟩ := List.forall_mem_cons.mp behind
    rw [List.cons_append, lazySpans, if_pos here]
    exact ih others

theorem greedy_closes_last {line rest : Text} {piece : Piece} (plain : '\n' ∉ line)
    (found : first? .greedy line = some (piece, rest)) (start : Nat) :
    ∃ j, (Text.marks closeMark start line).getLast? = some j ∧
      start + piece.gap.bytes + 4 ≤ j ∧
      j + 2 = start + piece.gap.bytes + piece.envelope.bytes ∧
      ∀ k ∈ Text.marks closeMark start line, k ≤ j := by
  obtain ⟨j, member, long, stop, preferred⟩ := first_ends plain found start []
  simp only [List.nil_append, Text.bytes_nil, Nat.add_zero] at member long stop preferred
  have greatest : ∀ k ∈ Text.marks closeMark start line, k ≤ j := by
    intro k closes
    by_cases late : start + piece.gap.bytes + 4 ≤ k
    · exact preferred k closes late
    · omega
  have last := Text.getLast_of_greatest (Text.marks_ascending closeMark start line) member greatest
  exact ⟨j, last, long, stop, greatest⟩

theorem greedy_once {line rest : Text} {piece : Piece} (plain : '\n' ∉ line)
    (found : first? .greedy line = some (piece, rest)) : first? .greedy rest = none := by
  have joined := (first_joins found).1
  obtain ⟨j, -, -, stop, greatest⟩ := greedy_closes_last plain found 0
  rw [← Option.not_isSome_iff_eq_none, first_isSome]
  rintro ⟨before, -, rfl, body, after, rfl, -, -⟩
  -- the close mark of a second envelope would stand behind the last one of the line
  have further := greatest _ ((Text.mem_marks (by decide)).mpr
    ⟨piece.gap ++ piece.envelope ++ before ++ openMark ++ body, after, by simp [joined], rfl⟩)
  simp only [Text.bytes_append] at further
  omega

theorem greedy_line (start : Nat) {line : Text} (plain : '\n' ∉ line) :
    spans start (cut .greedy line).1 =
      greedySpans (Text.marks openMark start line) (Text.marks closeMark start line) := by
  cases found : first? .greedy line with
  | none =>
    rw [cut_of_none found, greedySpans]
    split
    · next i j opens closes =>
      have early := close_too_early plain found (List.mem_of_head? opens)
        (List.mem_of_getLast? closes)
      rw [if_neg (by omega)]
      rfl
    · rfl
  | some hit =>
    obtain ⟨piece, rest⟩ := hit
    obtain ⟨early, opens, -⟩ := opens_of_first plain found start
    obtain ⟨j, last, long, stop, -⟩ := greedy_closes_last plain found start
    rw [cut_of_some found, cut_of_none (greedy_once plain found), greedySpans, opens, last]
    simp only [List.head?_cons]
    rw [if_pos long, stop]
    rfl

theorem none_closes {reach : Reach} {start i : Nat} {front text : Text} (plain : '\n' ∉ text)
    (absent : first? reach text = none)
    (opened : i ∈ Text.marks openMark (start + front.bytes) text) :
    (Text.marks closeMark start (front ++ text)).find? (i + 4 ≤ ·) = none := by
  have ahead := Text.marks_ge opened
  obtain ⟨early, closes, before⟩ := Text.marks_append closeMark start front text
  rw [List.find?_eq_none, closes]
  intro k member
  rw [decide_eq_true_eq]
  rcases List.mem_append.mp member with behind | after
  -- in front of the cursor, which is too early for a mark behind it
  · have := before k behind
    omega
  · have := close_too_early plain absent opened after
    omega

/-- The lazy envelopes of the part of a line behind a cursor, from the close marks of the whole
line. -/
theorem lazy_line (start : Nat) (front : Text) {text : Text} (plain : '\n' ∉ text) :
    spans (start + front.bytes) (cut .lazy text).1 =
      lazySpans (Text.marks closeMark start (front ++ text)) (start + front.bytes)
        (Text.marks openMark (start + front.bytes) text) := by
  fun_induction cut .lazy text generalizing front with
  | case1 text absent =>
    cases opens : Text.marks openMark (start + front.bytes) text with
    | nil => rfl
    | cons i others =>
      have opened : i ∈ Text.marks openMark (start + front.bytes) text := by simp [opens]
      have ahead := Text.marks_ge opened
      rw [lazySpans, if_neg (by omega), none_closes plain absent opened]
      rfl
  | case2 text piece rest found _ pieces tail step ih =>
    have joined := (first_joins found).1
    obtain ⟨early, opens, behind⟩ := opens_of_first plain found (start + front.bytes)
    have inside : '\n' ∉ rest := by
      intro member
      rw [joined] at plain
      exact plain (List.mem_append_right _ member)
    obtain ⟨j, member, long, stop, preferred⟩ := first_ends plain found start front
    have next := Text.find_of_least (Text.marks_ascending closeMark start (front ++ text)) member
      (decide_eq_true long) fun k closes late => preferred k closes (of_decide_eq_true late)
    have onward := ih (front ++ piece.gap ++ piece.envelope) inside
    have resumed : start + (front ++ piece.gap ++ piece.envelope).bytes = j + 2 := by
      rw [bytes_behind, stop]
      omega
    have again : front ++ piece.gap ++ piece.envelope ++ rest = front ++ text := by
      simp [joined]
    rw [resumed, again, step] at onward
    -- The open marks up to the new cursor lie inside the envelope just found.
    rw [← stop] at opens behind
    rw [opens, lazySpans, if_neg (by omega), next]
    simp only
    rw [lazySpans_skip behind, ← onward, spans, ← stop]

theorem line_spans (reach : Reach) (start : Nat) {line : Text} (plain : '\n' ∉ line) :
    spans start (cut reach line).1 = lineSpans reach start line := by
  cases reach with
  | greedy => exact greedy_line start plain
  | lazy => exact lazy_line start [] plain

theorem lines_spans (reach : Reach) (start : Nat) {lines : List Text} (some : lines ≠ [])
    (plain : ∀ line ∈ lines, '\n' ∉ line) :
    spans start (cut reach (Text.join ['\n'] lines)).1 = linesSpans reach start lines := by
  induction lines generalizing start with
  | nil => exact absurd rfl some
  | cons line lines ih =>
    obtain ⟨here, others⟩ := List.forall_mem_cons.mp plain
    have first := line_spans reach start here
    cases lines with
    | nil => simp [Text.join, linesSpans, first]
    | cons next later =>
      have rest := ih (start + line.bytes + 1) (List.cons_ne_nil next later) others
      rw [Text.join, List.append_assoc, List.singleton_append, spans_append_line, first, rest]
      · rfl
      · exact List.cons_ne_nil next later

theorem text_spans (reach : Reach) (text : Text) :
    spans 0 (cut reach text).1 = linesSpans reach 0 (text.split '\n') := by
  have plain : ∀ line ∈ text.split '\n', '\n' ∉ line := by
    intro line member
    exact Text.split_free member
  have lines := lines_spans reach 0 (Text.split_ne_nil '\n' text) plain
  rwa [Text.join_split] at lines

theorem lazySpans_ends {closes opens : List Nat} {cursor : Nat} {span : Nat × Nat}
    (member : span ∈ lazySpans closes cursor opens) :
    cursor ≤ span.1 ∧ span.1 ∈ opens ∧ ∃ k ∈ closes, span.1 + 4 ≤ k ∧ span.2 = k + 2 := by
  fun_induction lazySpans closes cursor opens with
  | case1 => cases member
  | case2 cursor i opens behind ih =>
    obtain ⟨ahead, opened, closed⟩ := ih member
    exact ⟨ahead, List.mem_cons_of_mem i opened, closed⟩
  | case3 => cases member
  | case4 cursor i opens ahead j next ih =>
    have held := List.find?_some next
    have long : i + 4 ≤ j := of_decide_eq_true held
    rcases List.mem_cons.mp member with rfl | later
    · refine ⟨Nat.le_of_not_lt ahead, List.mem_cons_self, j, ?_, long, rfl⟩
      exact List.mem_of_find?_eq_some next
    · obtain ⟨further, opened, closed⟩ := ih later
      exact ⟨by omega, List.mem_cons_of_mem i opened, closed⟩

theorem lazySpans_long {closes opens : List Nat} {cursor : Nat} {span : Nat × Nat}
    (member : span ∈ lazySpans closes cursor opens) : span.1 + 6 ≤ span.2 := by
  obtain ⟨-, -, k, -, long, stop⟩ := lazySpans_ends member
  omega

theorem greedySpans_long {closes opens : List Nat} {span : Nat × Nat}
    (member : span ∈ greedySpans opens closes) : span.1 + 6 ≤ span.2 := by
  rw [greedySpans] at member
  split at member
  · next i j _ _ =>
    split at member
    · obtain rfl := List.mem_singleton.mp member
      omega
    · cases member
  · cases member

theorem linesSpans_long {reach : Reach} {start : Nat} {lines : List Text} {span : Nat × Nat}
    (member : span ∈ linesSpans reach start lines) : span.1 + 6 ≤ span.2 := by
  induction lines generalizing start with
  | nil => cases member
  | cons line lines ih =>
    rcases List.mem_append.mp member with first | later
    · cases reach with
      | greedy => exact greedySpans_long first
      | lazy => exact lazySpans_long first
    · exact ih later

/-- Each span is a stretch of whole characters of the text, long enough for both marks and a
character between them, and starts where the one before it has ended. -/
structure Separate (text : Text) (spans : List (Nat × Nat)) : Prop where
  long : ∀ span ∈ spans, span.1 + 6 ≤ span.2
  bounded : ∀ span ∈ spans, span.2 ≤ text.bytes
  whole : ∀ span ∈ spans, (text.slice? span.1 span.2).isSome
  ascending : spans.Pairwise fun a b => a.1 < b.1
  disjoint : spans.Pairwise fun a b => a.2 ≤ b.1

theorem linesSpans_separate (reach : Reach) (text : Text) :
    Separate text (linesSpans reach 0 (text.split '\n')) := by
  have found := text_spans reach text
  have disjoint := spans_disjoint [] (cut reach text).1
  have within {span : Nat × Nat} (member : span ∈ spans 0 (cut reach text).1) :
      ∃ envelope, text.slice? span.1 span.2 = some envelope ∧ 0 ≤ span.1 ∧
        span.2 ≤ text.bytes := by
    have place := spans_within [] (cut reach text).2 member
    rwa [List.nil_append, assemble_cut] at place
  rw [Text.bytes_nil, found] at disjoint
  rw [found] at within
  refine ⟨fun span => linesSpans_long, ?_, ?_, ?_, disjoint⟩
  · intro span member
    obtain ⟨-, -, -, bounded⟩ := within member
    exact bounded
  · intro span member
    obtain ⟨envelope, slice, -, -⟩ := within member
    exact Option.isSome_of_eq_some slice
  · apply disjoint.imp_of_mem
    intro a b first _ apart
    have := linesSpans_long first
    omega

theorem envelopes_line_by_line (reach : Reach) (text : Text) :
    let lines := linesSpans reach 0 (text.split '\n')
    count reach text = lines.length ∧
      (∀ lenient found, scan ⟨reach, lenient⟩ text = .ok found →
        found.map (fun o => (o.offset, o.offset + o.length)) = lines) ∧
      Separate text lines ∧ (isIn text ↔ 0 < count reach text) := by
  intro lines
  have located : spans 0 (cut reach text).1 = lines := text_spans reach text
  refine ⟨?_, ?_, linesSpans_separate reach text, ?_⟩
  · rw [count, ← spans_length 0, located]
  · intro lenient found scanned
    rw [← located]
    exact Scan.occurrences_spans (scan_ok.mp scanned)
  · rw [isIn_iff, count_pos]

theorem stray_marks_delimit_nothing :
    let text : Text := "\x7d\x7d é$\x7b\x7bname: a, value: 1\x7d\x7d\x7d\x7d".toList ++
      "$\x7b\x7bname: b, value: 2\x7d\x7d\n$\x7b\x7b".toList
    let found : List Occurrence :=
      [⟨⟨['a'], .unknown, some (.raw ['1']), none⟩, 5, 22⟩,
        ⟨⟨['b'], .unknown, some (.raw ['2']), none⟩, 29, 22⟩]
    scan ⟨.lazy, false⟩ text = .ok found ∧
      found.map (fun o => (o.offset, o.offset + o.length)) =
        linesSpans .lazy 0 (text.split '\n') := by
  intro text found
  have scanned : scan ⟨.lazy, false⟩ text = .ok found := by decide +kernel
  obtain ⟨-, located, -, -⟩ := envelopes_line_by_line .lazy text
  exact ⟨scanned, located false found scanned⟩

end Stencil.Envelope
