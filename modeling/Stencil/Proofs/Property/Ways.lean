import Stencil.Declaration.Read
import Stencil.Proofs.Property

/-
The pattern of a property: blanks, a key, blanks, a colon, blanks, a value, and blanks up to the
end. A part of it can often take more or fewer characters, so the pattern may match in several ways;
they are tried in an order of preference and the first counts. All ways have the same key, and their
values differ in trailing blanks only, of which the first way takes none.
-/
namespace Stencil

/-- The ways in which a part of a pattern takes characters off a text, each with what it leaves, and
the preferred ones first. -/
abbrev Matcher := Text → List (Text × Text)

namespace Matcher

def one (ok : Char → Bool) : Matcher
  | [] => []
  | c :: rest => if ok c then [([c], rest)] else []

def least (ok : Char → Bool) : Matcher
  | [] => [([], [])]
  | c :: rest =>
    ([], c :: rest) ::
      if ok c then (least ok rest).map fun (run, after) => (c :: run, after) else []

def most (ok : Char → Bool) : Matcher := fun text => (least ok text).reverse

def both (first second : Matcher) : Matcher := fun text =>
  (first text).flatMap fun (front, rest) =>
    (second rest).map fun (back, after) => (front ++ back, after)

def word : Matcher := both (one Char.isAlpha) (most Char.isAlphanum)

def colon : Matcher := both (most isBlank) (one fun c => c = ':')

def phrase : Matcher := both (one fun c => !isBlank c) (least fun c => c ≠ '\n')

def ending : Matcher := fun text => (most isBlank text).filter fun (_, after) => after.isEmpty

end Matcher

open Matcher

/-- The ways in which a whole segment matches the pattern of a property. -/
def Property.ways (segment : Text) : List Property :=
  (most isBlank segment).flatMap fun (_, text) =>
    (word text).flatMap fun (key, text) =>
      (colon text).flatMap fun (_, text) =>
        (most isBlank text).flatMap fun (_, text) =>
          (phrase text).flatMap fun (value, text) =>
            (ending text).map fun _ => ⟨key, value⟩

theorem Text.blank_not_alphanum {c : Char} (blank : isBlank c) : c.isAlphanum = false := by
  rw [Bool.eq_false_iff]
  intro alphanum
  rw [alphanum_not_blank alphanum] at blank
  cases blank

theorem Text.trim_of_head {text : Text} (some : text ≠ [])
    (dark : ∀ c ∈ text.head?, isBlank c = false) :
    text.trim ≠ [] ∧ ∃ back, text = text.trim ++ back ∧ ∀ c ∈ back, isBlank c := by
  rw [trim, trimStart_of_head dark]
  refine ⟨fun empty => ?_, trimEnd_splits text⟩
  obtain ⟨c, tail, rfl⟩ := List.exists_cons_of_ne_nil some
  have bright := trimEnd_eq_nil.mp empty c List.mem_cons_self
  rw [dark c rfl] at bright
  cases bright

namespace Matcher

variable {ok : Char → Bool} {text run rest : Text}

theorem mem_one : (run, rest) ∈ one ok text ↔ ∃ c, run = [c] ∧ text = c :: rest ∧ ok c := by
  cases text with
  | nil => simp [one]
  | cons c tail =>
    rw [one]
    split
    · next good =>
      simp only [List.mem_singleton, Prod.mk.injEq, List.cons.injEq]
      constructor
      · rintro ⟨rfl, rfl⟩
        exact ⟨c, rfl, ⟨rfl, rfl⟩, good⟩
      · rintro ⟨d, rfl, ⟨rfl, rfl⟩, -⟩
        exact ⟨rfl, rfl⟩
    · next bad =>
      constructor
      · rintro ⟨⟩
      · rintro ⟨d, -, same, good⟩
        obtain ⟨rfl, -⟩ := List.cons.inj same
        exact absurd good bad

theorem least_cons {c : Char} {tail : Text} :
    (run, rest) ∈ least ok (c :: tail) ↔ (run = [] ∧ rest = c :: tail) ∨
      ok c ∧ ∃ inner, run = c :: inner ∧ (inner, rest) ∈ least ok tail := by
  rw [least, List.mem_cons, Prod.mk.injEq]
  refine or_congr_right ?_
  split
  · next good =>
    simp only [List.mem_map, Prod.exists, Prod.mk.injEq, good, true_and]
    constructor
    · rintro ⟨inner, after, within, rfl, rfl⟩
      exact ⟨inner, rfl, within⟩
    · rintro ⟨inner, rfl, within⟩
      exact ⟨inner, rest, within, rfl, rfl⟩
  · next bad => simp [bad]

theorem mem_least : (run, rest) ∈ least ok text ↔ text = run ++ rest ∧ ∀ c ∈ run, ok c := by
  induction text generalizing run with
  | nil =>
    simp only [least, List.mem_singleton, Prod.mk.injEq, List.nil_eq_append_iff]
    refine ⟨fun empty => ⟨empty, by simp [empty.1]⟩, fun empty => empty.1⟩
  | cons c tail ih =>
    rw [least_cons]
    cases run with
    | nil =>
      constructor
      · rintro (⟨-, rfl⟩ | ⟨-, inner, ⟨⟩, -⟩)
        exact ⟨rfl, by simp⟩
      · rintro ⟨same, -⟩
        exact Or.inl ⟨rfl, same.symm⟩
    | cons d run =>
      simp only [ih, List.cons.injEq, List.cons_append, List.forall_mem_cons, reduceCtorEq,
        false_and, false_or]
      constructor
      · rintro ⟨good, inner, ⟨rfl, rfl⟩, rfl, fine⟩
        exact ⟨⟨rfl, rfl⟩, good, fine⟩
      · rintro ⟨⟨rfl, rfl⟩, good, fine⟩
        exact ⟨good, run, ⟨rfl, rfl⟩, rfl, fine⟩

theorem mem_most : (run, rest) ∈ most ok text ↔ text = run ++ rest ∧ ∀ c ∈ run, ok c := by
  rw [most, List.mem_reverse, mem_least]

theorem mem_both {first second : Matcher} :
    (run, rest) ∈ both first second text ↔ ∃ front back middle, run = front ++ back ∧
      (front, middle) ∈ first text ∧ (back, rest) ∈ second middle := by
  simp only [both, List.mem_flatMap, List.mem_map, Prod.exists, Prod.mk.injEq]
  constructor
  · rintro ⟨front, middle, one, back, after, two, rfl, rfl⟩
    exact ⟨front, back, middle, rfl, one, two⟩
  · rintro ⟨front, back, middle, rfl, one, two⟩
    exact ⟨front, middle, one, back, rest, two, rfl, rfl⟩

theorem mem_word : (run, rest) ∈ word text ↔ text = run ++ rest ∧ run.isIdentifier := by
  rw [word, mem_both]
  constructor
  · rintro ⟨front, back, middle, rfl, first, later⟩
    obtain ⟨c, rfl, rfl, letter⟩ := mem_one.mp first
    obtain ⟨rfl, alphanum⟩ := mem_most.mp later
    exact ⟨rfl, by simpa [Text.isIdentifier, letter] using alphanum⟩
  · rintro ⟨rfl, identifier⟩
    cases run with
    | nil => cases identifier
    | cons c later =>
      simp only [Text.isIdentifier, Bool.and_eq_true, List.all_eq_true] at identifier
      exact ⟨[c], later, later ++ rest, rfl, mem_one.mpr ⟨c, rfl, rfl, identifier.1⟩,
        mem_most.mpr ⟨rfl, identifier.2⟩⟩

theorem mem_colon : (run, rest) ∈ colon text ↔ ∃ blanks, run = blanks ++ [':'] ∧
    text = blanks ++ ':' :: rest ∧ ∀ c ∈ blanks, isBlank c := by
  simp only [colon, mem_both, mem_most, mem_one, decide_eq_true_eq]
  constructor
  · rintro ⟨blanks, _, _, rfl, ⟨rfl, blank⟩, _, rfl, rfl, rfl⟩
    exact ⟨blanks, rfl, rfl, blank⟩
  · rintro ⟨blanks, rfl, rfl, blank⟩
    exact ⟨blanks, [':'], ':' :: rest, rfl, ⟨rfl, blank⟩, ':', rfl, rfl, rfl⟩

theorem mem_phrase : (run, rest) ∈ phrase text ↔ text = run ++ rest ∧ run ≠ [] ∧
    (∀ c ∈ run.head?, isBlank c = false) ∧ '\n' ∉ run := by
  rw [phrase, mem_both]
  constructor
  · rintro ⟨front, back, middle, rfl, first, later⟩
    obtain ⟨c, rfl, rfl, dark⟩ := mem_one.mp first
    obtain ⟨rfl, line⟩ := mem_least.mp later
    have plain : '\n' ∉ back := fun member => by simpa using line _ member
    refine ⟨rfl, by simp, by simpa using dark, ?_⟩
    simp only [List.singleton_append, List.mem_cons, not_or]
    refine ⟨?_, plain⟩
    rintro rfl
    exact absurd dark (by decide)
  · rintro ⟨rfl, some, dark, line⟩
    obtain ⟨c, later, rfl⟩ := List.exists_cons_of_ne_nil some
    simp only [List.mem_cons, not_or] at line
    refine ⟨[c], later, later ++ rest, rfl, mem_one.mpr ⟨c, rfl, rfl, by simpa using dark⟩,
      mem_least.mpr ⟨rfl, fun d member => ?_⟩⟩
    simp only [decide_eq_true_eq]
    rintro rfl
    exact line.2 member

theorem mem_ending : (run, rest) ∈ ending text ↔ (run = text ∧ rest = []) ∧
    ∀ c ∈ text, isBlank c := by
  rw [ending, List.mem_filter, mem_most, List.isEmpty_iff]
  constructor
  · rintro ⟨⟨rfl, blank⟩, rfl⟩
    rw [List.append_nil]
    exact ⟨⟨rfl, rfl⟩, blank⟩
  · rintro ⟨⟨rfl, rfl⟩, blank⟩
    exact ⟨⟨by simp, blank⟩, rfl⟩

theorem ending_none {c : Char} (member : c ∈ text) (dark : isBlank c = false) :
    ending text = [] := by
  rw [List.eq_nil_iff_forall_not_mem]
  rintro ⟨run, rest⟩ within
  have bright := (mem_ending.mp within).2 c member
  rw [dark] at bright
  cases bright

theorem first_flatMap {α β : Type} {candidates : List α} {next : α → List β} {a : α} {b : β}
    (first : candidates.head? = some a) (onward : (next a).head? = some b) :
    (candidates.flatMap next).head? = some b := by
  obtain ⟨later, rfl⟩ := List.head?_eq_some_iff.mp first
  rw [List.flatMap_cons, List.head?_append, onward]
  rfl

theorem one_first {c : Char} (good : ok c) : (one ok (c :: rest)).head? = some ([c], rest) := by
  simp [one, good]

theorem both_first {first second : Matcher} {front back middle : Text}
    (one : (first text).head? = some (front, middle))
    (two : (second middle).head? = some (back, rest)) :
    (both first second text).head? = some (front ++ back, rest) := by
  refine first_flatMap one ?_
  rw [List.head?_map, two]
  rfl

theorem most_first (good : ∀ c ∈ run, ok c) (stop : ∀ c ∈ rest.head?, ok c = false) :
    (most ok (run ++ rest)).head? = some (run, rest) := by
  rw [most, List.head?_reverse]
  induction run with
  | nil =>
    cases rest with
    | nil => rfl
    | cons c tail => simp [least, stop c rfl]
  | cons c run ih =>
    obtain ⟨here, later⟩ := List.forall_mem_cons.mp good
    simp [least, here, List.getLast?_cons, ih later]

theorem word_first (identifier : run.isIdentifier)
    (stop : ∀ c ∈ rest.head?, c.isAlphanum = false) :
    (word (run ++ rest)).head? = some (run, rest) := by
  cases run with
  | nil => cases identifier
  | cons c later =>
    simp only [Text.isIdentifier, Bool.and_eq_true, List.all_eq_true] at identifier
    exact both_first (one_first identifier.1) (most_first identifier.2 stop)

theorem colon_first {blanks : Text} (blank : ∀ c ∈ blanks, isBlank c) :
    (colon (blanks ++ ':' :: rest)).head? = some (blanks ++ [':'], rest) := by
  refine both_first (most_first blank ?_) (one_first rfl)
  rintro c ⟨rfl⟩
  decide

theorem ending_first (blank : ∀ c ∈ text, isBlank c) : (ending text).head? = some (text, []) := by
  have longest : (most isBlank (text ++ [])).head? = some (text, []) := most_first blank (by simp)
  rw [List.append_nil] at longest
  obtain ⟨later, ways⟩ := List.head?_eq_some_iff.mp longest
  rw [ending, ways]
  rfl

theorem least_first {β : Type} {next : Text × Text → List β} {b : β} (good : ∀ c ∈ run, ok c)
    (early : ∀ front c back, run = front ++ c :: back → next (front, c :: back ++ rest) = [])
    (onward : (next (run, rest)).head? = some b) :
    ((least ok (run ++ rest)).flatMap next).head? = some b := by
  induction run generalizing next with
  | nil =>
    refine first_flatMap (a := ([], rest)) ?_ onward
    cases rest <;> simp [least]
  | cons c run ih =>
    obtain ⟨here, later⟩ := List.forall_mem_cons.mp good
    have empty := early [] c run rfl
    rw [List.cons_append, least, if_pos here, List.flatMap_cons, ← List.cons_append, empty,
      List.nil_append, List.flatMap_map]
    refine ih later ?_ onward
    rintro front d back rfl
    exact early (c :: front) d back rfl

theorem phrase_first {β : Type} {next : Text × Text → List β} {b : β} (some : run ≠ [])
    (dark : ∀ c ∈ run.head?, isBlank c = false) (line : '\n' ∉ run)
    (early : ∀ front c back, run = front ++ c :: back → next (front, c :: back ++ rest) = [])
    (onward : (next (run, rest)).head? = .some b) :
    ((phrase (run ++ rest)).flatMap next).head? = .some b := by
  obtain ⟨c, later, rfl⟩ := List.exists_cons_of_ne_nil some
  have first : one (fun c => !isBlank c) (c :: (later ++ rest)) = [([c], later ++ rest)] := by
    simp [one, dark c rfl]
  rw [List.cons_append, phrase, both, first, List.flatMap_singleton, List.flatMap_map]
  simp only [List.mem_cons, not_or] at line
  refine least_first ?_ ?_ onward
  · intro d member
    simp only [decide_eq_true_eq]
    rintro rfl
    exact line.2 member
  · rintro front d back rfl
    exact early (c :: front) d back rfl

end Matcher

namespace Property

theorem mem_ways {segment : Text} {way : Property} :
    way ∈ ways segment ↔ ∃ w x y z : Text,
      segment = w ++ way.key ++ x ++ ':' :: (y ++ way.value ++ z) ∧
      (∀ c ∈ w ++ x ++ y ++ z, isBlank c) ∧ way.key.isIdentifier ∧ way.value ≠ [] ∧
      (∀ c ∈ way.value.head?, isBlank c = false) ∧ '\n' ∉ way.value := by
  obtain ⟨key, value⟩ := way
  simp only [ways, List.mem_flatMap, List.mem_map, Prod.exists, mem_most, mem_word, mem_colon,
    mem_phrase, mem_ending, Property.mk.injEq, List.forall_mem_append]
  constructor
  · rintro ⟨w, _, ⟨rfl, one⟩, _, _, ⟨rfl, identifier⟩, _, _, ⟨x, rfl, rfl, two⟩, y, _, ⟨rfl, three⟩,
      _, z, ⟨rfl, some, dark, line⟩, _, _, ⟨-, four⟩, rfl, rfl⟩
    exact ⟨w, x, y, z, by simp, ⟨⟨⟨one, two⟩, three⟩, four⟩, identifier, some, dark, line⟩
  · rintro ⟨w, x, y, z, rfl, ⟨⟨⟨one, two⟩, three⟩, four⟩, identifier, some, dark, line⟩
    exact ⟨w, key ++ (x ++ ':' :: (y ++ (value ++ z))), ⟨by simp, one⟩, key, _, ⟨rfl, identifier⟩,
      x ++ [':'], _, ⟨x, rfl, rfl, two⟩, y, _, ⟨rfl, three⟩, value, z, ⟨rfl, some, dark, line⟩, z,
      [], ⟨⟨rfl, rfl⟩, four⟩, rfl, rfl⟩

/-- What a way takes for the value is the value that is read, perhaps with blanks behind it. -/
theorem way_read {segment : Text} {way : Property} (member : way ∈ ways segment) :
    ∃ property blanks, ofText? segment = some property ∧ way.key = property.key ∧
      way.value = property.value ++ blanks ∧ ∀ c ∈ blanks, isBlank c := by
  obtain ⟨w, x, y, z, rfl, blank, identifier, some, dark, line⟩ := mem_ways.mp member
  obtain ⟨kept, back, joined, behind⟩ := Text.trim_of_head some dark
  refine ⟨⟨way.key, way.value.trim⟩, back, ?_, rfl, joined, behind⟩
  have parted : y ++ way.value ++ z = y ++ way.value.trim ++ (back ++ z) := by
    calc y ++ way.value ++ z
      _ = y ++ (way.value.trim ++ back) ++ z := by rw [← joined]
      _ = y ++ way.value.trim ++ (back ++ z) := by simp
  rw [parted]
  refine ofText_padded identifier kept (fun feed => line (Text.trim_subset _ feed))
    (Text.trim_trimmed _) _ _ _ _ ?_
  simp only [List.forall_mem_append] at blank ⊢
  exact ⟨blank.1, behind, blank.2⟩

/-- The value that is read is the shortest behind which only blanks follow. -/
theorem first_way {segment : Text} {property : Property}
    (read : ofText? segment = some property) : (ways segment).head? = some property := by
  obtain ⟨⟨identifier, some, line, trimmed⟩, w, x, y, z, blank, rfl⟩ := ofText_spells.mp read
  obtain ⟨key, value⟩ := property
  simp only [List.forall_mem_append] at blank
  obtain ⟨⟨⟨one, two⟩, three⟩, four⟩ := blank
  dsimp only at identifier some line trimmed ⊢
  rw [ways, List.append_assoc w, List.append_assoc w, List.append_assoc key, List.append_assoc y]
  refine first_flatMap (most_first one ?_) ?_
  · rw [List.head?_append_of_ne_nil _ (Text.identifier_ne_nil identifier)]
    exact (Text.identifier_trimmed identifier).1
  refine first_flatMap (word_first identifier ?_) ?_
  · cases x with
    | nil =>
      rintro c ⟨rfl⟩
      decide
    | cons d x =>
      rintro c ⟨rfl⟩
      exact Text.blank_not_alphanum (two d List.mem_cons_self)
  refine first_flatMap (colon_first two) ?_
  refine first_flatMap (most_first three ?_) ?_
  · rw [List.head?_append_of_ne_nil _ some]
    exact trimmed.1
  refine phrase_first some trimmed.1 line ?_ ?_
  -- a shorter value leaves its last character in front of the end, and that is no blank
  · rintro front c back rfl
    have ends := List.cons_ne_nil c back
    have last := List.getLast?_append_of_ne_nil front ends
    obtain ⟨d, same⟩ := Option.isSome_iff_exists.mp (List.getLast?_isSome.mpr ends)
    have dark := trimmed.2 d (by rw [last]; exact same)
    dsimp only
    rw [ending_none (List.mem_append_left z (List.mem_of_getLast? same)) dark]
    rfl
  · dsimp only
    rw [List.head?_map, ending_first four]
    rfl

theorem ofText_first_way (segment : Text) : ofText? segment = (ways segment).head? := by
  cases read : ofText? segment with
  | some property => exact (first_way read).symm
  | none =>
    cases found : (ways segment).head? with
    | none => rfl
    | some way =>
      obtain ⟨property, -, reads, -⟩ := way_read (List.mem_of_head? found)
      rw [read] at reads
      cases reads

theorem readProperty_ok {segment : Text} {property : Property} :
    Declaration.readProperty segment = .ok property ↔ ofText? segment = some property := by
  rw [Declaration.readProperty]
  cases ofText? segment <;> simp

theorem readProperty_error {segment : Text} {fault : Declaration.Fault} :
    Declaration.readProperty segment = .error fault ↔
      fault = .malformedProperty segment ∧ ways segment = [] := by
  rw [← List.head?_eq_none_iff, ← ofText_first_way, Declaration.readProperty]
  cases ofText? segment <;> simp [eq_comm]

/-- The pattern matches when the first colon parts the segment well, and then only one way of
matching it leaves no blank at the end of the value. -/
theorem first_colon_parts_property (segment : Text) :
    (∀ property, Declaration.readProperty segment = .ok property ↔
      ∃ left right : Text, segment = left ++ ':' :: right ∧ ':' ∉ left ∧
        property = ⟨left.trim, right.trim⟩ ∧
        left.trim.isIdentifier ∧ right.trim ≠ [] ∧ '\n' ∉ right.trim) ∧
    (∀ fault, Declaration.readProperty segment = .error fault ↔
      fault = .malformedProperty segment ∧ ways segment = []) ∧
    (∀ property, Declaration.readProperty segment = .ok property ↔
      (ways segment).head? = some property) ∧
    (∀ property, Declaration.readProperty segment = .ok property → property.value.Trimmed ∧
      ∀ way ∈ ways segment, way.key = property.key ∧
        ∃ blanks, way.value = property.value ++ blanks ∧ ∀ c ∈ blanks, isBlank c) ∧
    ∀ (property : Property) (w x y z : Text), property.Sound →
      (∀ c ∈ w ++ x ++ y ++ z, isBlank c) →
      segment = w ++ property.key ++ x ++ ':' :: (y ++ property.value ++ z) →
      Declaration.readProperty segment = .ok property := by
  refine ⟨fun property => ?_, fun fault => readProperty_error, fun property => ?_,
    fun property read => ?_, fun property w x y z sound blank spelled => ?_⟩
  · rw [readProperty_ok, ofText_eq_some]
  · rw [readProperty_ok, ofText_first_way]
  · have found := readProperty_ok.mp read
    refine ⟨(ofText_spells.mp found).1.trimmed, fun way member => ?_⟩
    obtain ⟨known, blanks, same, key, value, blank⟩ := way_read member
    obtain rfl := Option.some.inj (found.symm.trans same)
    exact ⟨key, blanks, value, blank⟩
  · exact readProperty_ok.mpr (ofText_spells.mpr ⟨sound, w, x, y, z, blank, spelled⟩)

theorem later_colon_stays_in_the_value :
    let segment : Text := " key\n: a: b \n".toList
    let property : Property := ⟨"key".toList, "a: b".toList⟩
    let padded : Property := ⟨"key".toList, "a: b ".toList⟩
    Declaration.readProperty segment = .ok property ∧ ways segment = [property, padded] ∧
      (property.value.Trimmed ∧ padded.key = property.key) ∧
      Declaration.readProperty "key\n".toList = .error (.malformedProperty "key\n".toList) := by
  intro segment property padded
  obtain ⟨-, -, -, agree, spelled⟩ := first_colon_parts_property segment
  obtain ⟨-, refused, -⟩ := first_colon_parts_property "key\n".toList
  have sound : property.Sound := ⟨by decide, by decide, by decide, by decide⟩
  have read := spelled property [' '] ['\n'] [' '] " \n".toList sound
    (List.all_eq_true.mp (by decide)) rfl
  have both : ways segment = [property, padded] := by decide
  obtain ⟨trimmed, alike⟩ := agree property read
  refine ⟨read, both, ⟨trimmed, (alike padded ?_).1⟩, (refused _).mpr ⟨rfl, by decide⟩⟩
  rw [both]
  exact List.mem_cons_of_mem property List.mem_cons_self

end Property
end Stencil
