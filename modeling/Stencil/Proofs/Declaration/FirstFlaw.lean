import Mathlib.Data.List.Infix
import Stencil.Proofs.Declaration.Grammar

/-
Reading agrees with the grammar of placeholders: it yields what a text without flaws says, and of
several flaws it reports the one of least rank, in whatever order the properties stand.
-/
namespace Stencil

namespace Declaration

open Property

variable {lenient : Bool} {text : Text} {segments : List Text} {properties : List Property}

theorem inner_eq_some {inner : Text} :
    inner? text = some inner ↔ Envelope.Holds text ∧
      text.slice? openMark.bytes (text.bytes - closeMark.bytes) = some inner := by
  rw [inner?, ← Envelope.isIn_iff]
  split
  · next marked => simp [marked]
  · next bare => simp [bare]

theorem inner_eq_none (absent : inner? text = none) :
    ¬ Envelope.Holds text ∨ ∀ segments, ¬ Segments text segments := by
  by_cases marked : Envelope.Holds text
  · refine Or.inr fun segments cut => ?_
    obtain ⟨inner, slice, -⟩ := segments_slice.mp cut
    rw [inner_eq_some.mpr ⟨marked, slice⟩] at absent
    cases absent
  · exact Or.inl marked

theorem readProperties_error {fault : Fault} (failed : readProperties segments = .error fault) :
    ∃ segment, Leftmost Malformed segments segment ∧ fault = .malformedProperty segment := by
  induction segments with
  | nil => cases failed
  | cons segment others ih =>
    rw [readProperties, bind_eq_error] at failed
    cases found : ofText? segment with
    | none =>
      refine ⟨segment, leftmost_cons.mpr (Or.inl ⟨ofText_eq_none.mp found, rfl⟩), ?_⟩
      rcases failed with now | ⟨property, read, -⟩
      · rw [readProperty, found] at now
        exact (Except.error.inj now).symm
      · rw [readProperty, found] at read
        cases read
    | some property =>
      have sound : ¬ Malformed segment := by
        rw [← ofText_eq_none, found]
        simp
      rcases failed with now | ⟨_, -, rest⟩
      · rw [readProperty, found] at now
        cases now
      · rcases bind_eq_error.mp rest with later | ⟨_, -, made⟩
        · obtain ⟨behind, leftmost, same⟩ := ih later
          exact ⟨behind, leftmost_cons.mpr (Or.inr ⟨sound, leftmost⟩), same⟩
        · cases made

theorem parts_iff {segment : Text} {property other : Property}
    (found : ofText? segment = some property) : Parts segment other ↔ other = property := by
  constructor
  · intro parts
    exact parts_unique parts (ofText_parts found)
  · rintro rfl
    exact ofText_parts found

theorem sound_of_parsed (parsed : segments.map ofText? = properties.map some) {segment : Text}
    (member : segment ∈ segments) : ¬ Malformed segment := by
  have mapped : ofText? segment ∈ properties.map some := by
    rw [← parsed]
    exact List.mem_map_of_mem member
  rw [← ofText_eq_none]
  intro absent
  simp [absent] at mapped

theorem first_lookup {key : Key} {value : Text}
    (parsed : segments.map ofText? = properties.map some) :
    First segments key value ↔ lookup? key.text properties = some value := by
  induction segments generalizing properties with
  | nil =>
    obtain rfl := List.map_eq_nil_iff.mp parsed.symm
    simp [First, Leftmost, lookup?]
  | cons segment others ih =>
    cases properties with
    | nil => simp at parsed
    | cons property later =>
      obtain ⟨found, rest⟩ := List.cons.inj parsed
      rw [first_cons, ih rest]
      simp only [HasKey, parts_iff found, lookup?, List.find?_cons]
      obtain ⟨word, content⟩ := property
      by_cases same : word = key.text
      · simp [same, eq_comm]
      · simp [same, Ne.symm same]

theorem lacks_lookup {key : Key} (parsed : segments.map ofText? = properties.map some) :
    Lacks segments key ↔ lookup? key.text properties = none := by
  simp only [lacks_iff, first_lookup parsed, Option.eq_none_iff_forall_ne_some, ne_eq]

theorem readName_error {fault : Fault} (parsed : segments.map ofText? = properties.map some)
    (failed : readName text properties = .error fault) :
    (Lacks segments .name ∧ fault = .missingName text) ∨
      ∃ name, Named segments name ∧ ¬ name.isIdentifier ∧ fault = .invalidName name := by
  rw [readName] at failed
  split at failed
  · next absent => exact Or.inl ⟨(lacks_lookup parsed).mpr absent, (Except.error.inj failed).symm⟩
  · next quoted found =>
    have first := (first_lookup parsed).mpr found
    dsimp only at failed
    split at failed
    · cases failed
    · next other =>
      exact Or.inr ⟨_, named_iff.mpr ⟨quoted, first, rfl⟩, other, (Except.error.inj failed).symm⟩

theorem named_of_read {name : Text} (parsed : segments.map ofText? = properties.map some)
    (read : readName text properties = .ok name) : Named segments name ∧ name.isIdentifier := by
  obtain ⟨quoted, found, rfl, identifier⟩ := readName_ok.mp read
  exact ⟨named_iff.mpr ⟨quoted, (first_lookup parsed).mpr found, rfl⟩, identifier⟩

theorem readKind_error {fault : Fault} (parsed : segments.map ofText? = properties.map some)
    (failed : readKind properties = .error fault) :
    ∃ tag, First segments .kind tag ∧ (∀ kind : Kind, tag ≠ kind.tag) ∧
      fault = .unknownKind tag := by
  rw [readKind] at failed
  split at failed
  · cases failed
  · next tag found =>
    split at failed
    · next unknown =>
      refine ⟨tag, (first_lookup parsed).mpr found, ?_, (Except.error.inj failed).symm⟩
      intro kind same
      rw [Kind.ofTag_eq_some.mpr same] at unknown
      cases unknown
    · cases failed

theorem typed_of_read {kind : Kind} (parsed : segments.map ofText? = properties.map some)
    (read : readKind properties = .ok kind) : Typed segments kind := by
  rw [readKind] at read
  split at read
  · next absent => exact Or.inr ⟨(lacks_lookup parsed).mpr absent, (Except.ok.inj read).symm⟩
  · next tag found =>
    split at read
    · cases read
    · next known =>
      obtain rfl := Except.ok.inj read
      rw [Kind.ofTag_eq_some.mp known] at found
      exact Or.inl ((first_lookup parsed).mpr found)

theorem requireValue_error {value fallback : Option Text} {fault : Fault}
    (failed : requireValue text value fallback = .error fault) :
    value = none ∧ fallback = none ∧ fault = .missingValue text := by
  cases value <;> cases fallback <;> simp_all [requireValue]

theorem offered_of_required (parsed : segments.map ofText? = properties.map some)
    (required : requireValue text (lookup? Key.value.text properties)
      (lookup? Key.fallback.text properties) = .ok ()) :
    ¬ (Lacks segments .value ∧ Lacks segments .fallback) := by
  rw [lacks_lookup parsed, lacks_lookup parsed]
  rintro ⟨value, fallback⟩
  rw [value, fallback] at required
  cases required

theorem readEmbedded_error {name : Text} {kind : Kind} {literal : Option Text} {fault : Fault}
    (failed : readEmbedded lenient name kind literal = .error fault) :
    lenient = false ∧ ∃ l, literal = some l ∧ ¬ kind.accepts l ∧
      fault = .kindMismatch name kind (Kind.detect l) := by
  cases literal with
  | none => cases failed
  | some l =>
    rw [readEmbedded, readLiteral] at failed
    by_cases accepted : kind.accepts l
    · rw [Verdict.of, if_pos accepted] at failed
      cases failed
    · rw [Verdict.refused accepted] at failed
      cases lenient with
      | true => cases failed
      | false => exact ⟨rfl, l, rfl, accepted, (Except.error.inj failed).symm⟩

theorem embeds_of_read {key : Key} {name : Text} {kind : Kind} {value : Option Value}
    (parsed : segments.map ofText? = properties.map some)
    (read : readEmbedded lenient name kind (lookup? key.text properties) = .ok value) :
    Embeds segments key kind value ∧
      (lenient ∨ ∀ literal, First segments key literal → kind.accepts literal) := by
  obtain ⟨rfl, accepted⟩ := readEmbedded_ok.mp read
  constructor
  · cases found : lookup? key.text properties with
    | none => exact Or.inr ⟨(lacks_lookup parsed).mpr found, rfl⟩
    | some literal => exact Or.inl ⟨literal, (first_lookup parsed).mpr found, rfl⟩
  · refine accepted.imp_right fun valid literal first => valid literal ?_
    exact (first_lookup parsed).mp first

/-- All flaws of lower rank have been looked for in vain. -/
def Clear (lenient : Bool) (text : Text) (rank : Nat) : Prop :=
  ∀ fault, Flaw lenient text fault → rank ≤ fault.rank

theorem clear_next {rank : Nat} (clear : Clear lenient text rank)
    (none : ∀ fault, Flaw lenient text fault → fault.rank ≠ rank) :
    Clear lenient text (rank + 1) := by
  intro fault flaw
  have lower := clear fault flaw
  have other := none fault flaw
  omega

theorem clear_marked (marked : Envelope.Holds text) (cut : Segments text segments) :
    Clear lenient text 1 := by
  apply clear_next fun _ _ => Nat.zero_le _
  intro fault flaw rank
  cases flaw with
  | unmarked bare =>
    rcases bare with absent | uncut
    · exact absent marked
    · exact uncut segments cut
  | _ => cases rank

theorem clear_parsed (cut : Segments text segments)
    (parsed : segments.map ofText? = properties.map some) (clear : Clear lenient text 1) :
    Clear lenient text 2 := by
  apply clear_next clear
  intro fault flaw rank
  cases flaw with
  | malformed again first =>
    obtain rfl := segments_unique cut again
    obtain ⟨member, malformed⟩ := leftmost_mem first
    exact absurd malformed (sound_of_parsed parsed member)
  | _ => cases rank

theorem clear_present {name : Text} (cut : Segments text segments) (named : Named segments name)
    (clear : Clear lenient text 2) : Clear lenient text 3 := by
  apply clear_next clear
  intro fault flaw rank
  cases flaw with
  | unnamed again lacks =>
    obtain rfl := segments_unique cut again
    obtain ⟨quoted, first, -⟩ := named
    exact lacks_iff.mp lacks quoted first
  | _ => cases rank

theorem clear_identifier {name : Text} (cut : Segments text segments) (named : Named segments name)
    (identifier : name.isIdentifier) (clear : Clear lenient text 3) : Clear lenient text 4 := by
  apply clear_next clear
  intro fault flaw rank
  cases flaw with
  | misnamed again name other =>
    obtain rfl := segments_unique cut again
    rw [named_unique named name] at identifier
    exact other identifier
  | _ => cases rank

theorem clear_typed {kind : Kind} (cut : Segments text segments) (typed : Typed segments kind)
    (clear : Clear lenient text 4) : Clear lenient text 5 := by
  apply clear_next clear
  intro fault flaw rank
  cases flaw with
  | untyped again first other =>
    obtain rfl := segments_unique cut again
    rcases typed with declared | ⟨lacks, -⟩
    · exact other kind (first_unique first declared)
    · exact lacks_iff.mp lacks _ first
  | _ => cases rank

theorem clear_offered (cut : Segments text segments)
    (offered : ¬ (Lacks segments .value ∧ Lacks segments .fallback))
    (clear : Clear lenient text 5) : Clear lenient text 6 := by
  apply clear_next clear
  intro fault flaw rank
  cases flaw with
  | empty again value fallback =>
    obtain rfl := segments_unique cut again
    exact offered ⟨value, fallback⟩
  | _ => cases rank

theorem clear_matched {kind : Kind} (cut : Segments text segments) (typed : Typed segments kind)
    (matched : lenient ∨ ∀ literal, ¬ Mismatch segments kind literal)
    (clear : Clear lenient text 6) : Clear lenient text 7 := by
  apply clear_next clear
  intro fault flaw rank
  cases flaw with
  | mismatched strict again _ declared other =>
    obtain rfl := segments_unique cut again
    obtain rfl := typed_unique typed declared
    rcases matched with loose | sound
    · rw [strict] at loose
      cases loose
    · exact sound _ other
  | _ => cases rank

theorem ofProperties_error {fault : Fault} (cut : Segments text segments)
    (parsed : segments.map ofText? = properties.map some) (clear : Clear lenient text 2)
    (failed : ofProperties lenient text properties = .error fault) :
    Flaw lenient text fault ∧ Clear lenient text fault.rank := by
  rw [ofProperties, bind_eq_error] at failed
  rcases failed with unnamed | ⟨name, named, failed⟩
  · rcases readName_error parsed unnamed with ⟨lacks, rfl⟩ | ⟨name, named, other, rfl⟩
    · exact ⟨.unnamed cut lacks, clear⟩
    · exact ⟨.misnamed cut named other, clear_present cut named clear⟩
  obtain ⟨named, identifier⟩ := named_of_read parsed named
  have clear := clear_identifier cut named identifier (clear_present cut named clear)
  rcases bind_eq_error.mp failed with untyped | ⟨kind, typed, failed⟩
  · obtain ⟨tag, first, other, rfl⟩ := readKind_error parsed untyped
    exact ⟨.untyped cut first other, clear⟩
  have typed := typed_of_read parsed typed
  have clear := clear_typed cut typed clear
  rcases bind_eq_error.mp failed with empty | ⟨_, offered, failed⟩
  · obtain ⟨value, fallback, rfl⟩ := requireValue_error empty
    exact ⟨.empty cut ((lacks_lookup parsed).mpr value) ((lacks_lookup parsed).mpr fallback), clear⟩
  have clear := clear_offered cut (offered_of_required parsed offered) clear
  rcases bind_eq_error.mp failed with wrong | ⟨value, first, failed⟩
  · obtain ⟨strict, literal, found, other, rfl⟩ := readEmbedded_error wrong
    have mismatch : Mismatch segments kind literal :=
      Or.inl ⟨(first_lookup parsed).mpr found, other⟩
    exact ⟨.mismatched strict cut named typed mismatch, clear⟩
  rcases bind_eq_error.mp failed with wrong | ⟨fallback, -, made⟩
  · obtain ⟨strict, literal, found, other, rfl⟩ := readEmbedded_error wrong
    obtain ⟨-, loose | sound⟩ := embeds_of_read parsed first
    · rw [strict] at loose
      cases loose
    · have mismatch : Mismatch segments kind literal :=
        Or.inr ⟨(first_lookup parsed).mpr found, other, sound⟩
      exact ⟨.mismatched strict cut named typed mismatch, clear⟩
  · cases made

theorem ofProperties_means {d : Declaration} (cut : Segments text segments)
    (parsed : segments.map ofText? = properties.map some) (clear : Clear lenient text 2)
    (made : ofProperties lenient text properties = .ok d) :
    Means text d ∧ Clear lenient text 7 := by
  obtain ⟨name, kind, offered, value, fallback⟩ := ofProperties_ok.mp made
  obtain ⟨named, identifier⟩ := named_of_read parsed name
  have typed := typed_of_read parsed kind
  obtain ⟨first, matched⟩ := embeds_of_read parsed value
  obtain ⟨second, sound⟩ := embeds_of_read parsed fallback
  have clear := clear_identifier cut named identifier (clear_present cut named clear)
  have clear := clear_offered cut (offered_of_required parsed offered)
    (clear_typed cut typed clear)
  refine ⟨⟨segments, cut, named, typed, first, second⟩, clear_matched cut typed ?_ clear⟩
  rcases matched with loose | right
  · exact Or.inl loose
  rcases sound with loose | good
  · exact Or.inl loose
  refine Or.inr fun literal mismatch => ?_
  rcases mismatch with ⟨here, other⟩ | ⟨there, other, -⟩
  · exact other (right literal here)
  · exact other (good literal there)

theorem read_error {fault : Fault} (failed : read lenient text = .error fault) :
    Flaw lenient text fault ∧ Clear lenient text fault.rank := by
  rw [read] at failed
  split at failed
  · next absent =>
    obtain rfl := Except.error.inj failed
    exact ⟨.unmarked (inner_eq_none absent), fun _ _ => Nat.zero_le _⟩
  · next inner found =>
    obtain ⟨marked, slice⟩ := inner_eq_some.mp found
    have cut := segments_slice.mpr ⟨inner, slice, rfl⟩
    have clear : Clear lenient text 1 := clear_marked marked cut
    rcases bind_eq_error.mp failed with malformed | ⟨properties, read, failed⟩
    · obtain ⟨segment, first, rfl⟩ := readProperties_error malformed
      exact ⟨.malformed cut first, clear⟩
    · have parsed := readProperties_ok.mp read
      exact ofProperties_error cut parsed (clear_parsed cut parsed clear) failed

theorem read_means {d : Declaration} (made : read lenient text = .ok d) :
    Means text d ∧ Clear lenient text 7 := by
  obtain ⟨inner, properties, found, read, made⟩ := read_ok.mp made
  obtain ⟨marked, slice⟩ := inner_eq_some.mp found
  have cut := segments_slice.mpr ⟨inner, slice, rfl⟩
  have parsed := readProperties_ok.mp read
  exact ofProperties_means cut parsed (clear_parsed cut parsed (clear_marked marked cut)) made

theorem rank_lt (fault : Fault) : fault.rank < 7 := by
  cases fault <;> simp [Fault.rank]

/-- Reading yields the meaning of a text without flaws, and otherwise its flaw of least rank. -/
theorem read_agrees_with_grammar (lenient : Bool) (text : Text) :
    (∀ d, read lenient text = .ok d ↔
      Means text d ∧ ∀ fault, ¬ Flaw lenient text fault) ∧
    ∀ fault, read lenient text = .error fault ↔
      Flaw lenient text fault ∧
        ∀ other, Flaw lenient text other → fault.rank ≤ other.rank := by
  have flawless {d : Declaration} (made : read lenient text = .ok d) (fault : Fault) :
      ¬ Flaw lenient text fault := by
    intro flaw
    have high := (read_means made).2 fault flaw
    have low := rank_lt fault
    omega
  constructor
  · intro d
    refine ⟨fun made => ⟨(read_means made).1, flawless made⟩, ?_⟩
    rintro ⟨meaning, sound⟩
    cases outcome : read lenient text with
    | error fault => exact absurd (read_error outcome).1 (sound fault)
    | ok other => rw [means_unique meaning (read_means outcome).1]
  · intro fault
    refine ⟨read_error, ?_⟩
    rintro ⟨flaw, least⟩
    cases outcome : read lenient text with
    | ok d => exact absurd flaw (flawless outcome fault)
    | error other =>
      obtain ⟨found, clear⟩ := read_error outcome
      have same := Nat.le_antisymm (least other found) (clear fault flaw)
      rw [flaw_unique flaw found same]

theorem wrong_name_before_wrong_kind :
    let text := "$\x7b\x7btype: T, x: 1, name: 'a-b', type: NULL, name: c\x7d\x7d".toList
    read false text = .error (.invalidName "a-b".toList) ∧
      (Flaw false text (.invalidName "a-b".toList) ∧
        ∀ other, Flaw false text other → 3 ≤ other.rank) := by
  intro text
  have failed : read false text = .error (.invalidName "a-b".toList) := by decide +kernel
  exact ⟨failed, ((read_agrees_with_grammar false text).2 _).mp failed⟩

end Declaration
end Stencil
