import Stencil.Proofs.Declaration.FirstFlaw
import Stencil.Proofs.Scan.Occurrences

/-
What a lenient reader does differently: it drops a literal that is not of the declared kind, where a
strict reader refuses the placeholder. Every other flaw it reports as the strict reader does, and
what the strict reader accepts it reads alike.
-/
namespace Stencil

namespace Declaration

def Fault.IsMismatch (fault : Fault) : Prop :=
  ∃ name expected actual, fault = .kindMismatch name expected actual

/-- What is embedded under a key is the first literal there, or nothing if there is none or it is
not of the declared kind. -/
structure Keeps (segments : List Text) (key : Key) (kind : Kind) (value : Option Value) : Prop where
  absent : value = none ↔
    Lacks segments key ∨ ∃ literal, First segments key literal ∧ ¬ kind.accepts literal
  present : ∀ literal, First segments key literal → kind.accepts literal →
    ∃ v, kind.read? literal = some v ∧ value = some v

theorem Fault.isMismatch_iff {fault : Fault} : fault.IsMismatch ↔ fault.rank = 6 := by
  cases fault <;> simp [IsMismatch, rank]

theorem flaw_lenient {text : Text} {fault : Fault} :
    Flaw true text fault ↔ Flaw false text fault ∧ ¬ fault.IsMismatch := by
  rw [Fault.isMismatch_iff]
  constructor
  · intro flaw
    cases flaw with
    | mismatched strict => cases strict
    | _ => exact ⟨by constructor <;> assumption, by simp [Fault.rank]⟩
  · intro both
    obtain ⟨flaw, low⟩ := both
    cases flaw with
    | mismatched => exact absurd rfl low
    | _ => constructor <;> assumption

theorem read_lenient_ok {text : Text} {d : Declaration} (made : read false text = .ok d) :
    read true text = .ok d := by
  obtain ⟨meaning, clear⟩ := read_means made
  cases outcome : read true text with
  | error fault =>
    have flaw := (flaw_lenient.mp (read_error outcome).1).1
    have high := clear fault flaw
    have low := rank_lt fault
    omega
  | ok other => rw [means_unique (read_means outcome).1 meaning]

theorem read_lenient_error {text : Text} {fault : Fault} (failed : read false text = .error fault)
    (other : ¬ fault.IsMismatch) : read true text = .error fault := by
  obtain ⟨flaw, least⟩ := read_error failed
  have kept : Flaw true text fault := flaw_lenient.mpr ⟨flaw, other⟩
  cases outcome : read true text with
  | ok d =>
    have high := (read_means outcome).2 fault kept
    have low := rank_lt fault
    omega
  | error found =>
    obtain ⟨again, clear⟩ := read_error outcome
    have below := clear fault kept
    have above := least found (flaw_lenient.mp again).1
    rw [flaw_unique again kept (Nat.le_antisymm below above)]

theorem read_lenient_not_mismatch {text : Text} {fault : Fault}
    (failed : read true text = .error fault) : ¬ fault.IsMismatch :=
  (flaw_lenient.mp (read_error failed).1).2

theorem embeds_keeps {segments : List Text} {key : Key} {kind : Kind} {value : Option Value}
    (embeds : Embeds segments key kind value) : Keeps segments key kind value := by
  rcases embeds with ⟨literal, first, rfl⟩ | ⟨lacks, rfl⟩
  · have same {other : Text} (again : First segments key other) : other = literal :=
      first_unique again first
    constructor
    · rw [← Option.not_isSome_iff_eq_none, ← Kind.accepts_eq_read]
      constructor
      · intro refused
        exact Or.inr ⟨literal, first, refused⟩
      · intro dropped
        rcases dropped with lacks | ⟨other, again, refused⟩
        · exact absurd first (lacks_iff.mp lacks literal)
        · rwa [same again] at refused
    · intro other again accepted
      rw [same again, Kind.accepts_eq_read] at accepted
      obtain ⟨v, read⟩ := Option.isSome_iff_exists.mp accepted
      exact ⟨v, by rw [same again, read], read⟩
  · constructor
    · simp [lacks]
    · intro literal first
      exact absurd first (lacks_iff.mp lacks literal)

theorem read_lenient_drops {text name : Text} {kind actual : Kind}
    (failed : read false text = .error (.kindMismatch name kind actual)) :
    ∃ segments d, Segments text segments ∧ read true text = .ok d ∧ d.name = name ∧
      d.kind = kind ∧ Keeps segments .value kind d.value ∧
      Keeps segments .fallback kind d.fallback := by
  obtain ⟨flaw, clear⟩ := read_error failed
  cases outcome : read true text with
  | error found =>
    obtain ⟨again, other⟩ := flaw_lenient.mp (read_error outcome).1
    have high : 6 ≤ found.rank := clear found again
    have low := rank_lt found
    exact absurd (Fault.isMismatch_iff.mpr (by omega)) other
  | ok d =>
    obtain ⟨segments, cut, named, typed, value, fallback⟩ := (read_means outcome).1
    cases flaw with
    | mismatched _ again name kind =>
      obtain rfl := segments_unique cut again
      obtain sameKind := typed_unique typed kind
      rw [sameKind] at value fallback
      exact ⟨segments, d, cut, rfl, named_unique named name, sameKind, embeds_keeps value,
        embeds_keeps fallback⟩

end Declaration

namespace Scan

theorem occurrences_lenient {start : Nat} {pieces : List Envelope.Piece} {found : List Occurrence}
    (located : occurrences false start pieces = .ok found) :
    occurrences true start pieces = .ok found := by
  induction pieces generalizing start found with
  | nil => exact located
  | cons piece pieces ih =>
    obtain ⟨declaration, later, read, others, rfl⟩ := occurrences_cons_ok.mp located
    have again := Declaration.read_lenient_ok read
    exact occurrences_cons_ok.mpr ⟨declaration, later, again, ih others, rfl⟩

end Scan

theorem scan_lenient_ok {reach : Reach} {text : Text} {found : List Occurrence}
    (scanned : scan ⟨reach, false⟩ text = .ok found) : scan ⟨reach, true⟩ text = .ok found :=
  scan_ok.mpr (Scan.occurrences_lenient (scan_ok.mp scanned))

theorem scan_lenient_not_mismatch {reach : Reach} {text : Text} {fault : Scan.Fault}
    (failed : scan ⟨reach, true⟩ text = .error fault) : ¬ fault.cause.IsMismatch := by
  obtain ⟨offset, located, -⟩ := scan_error.mp failed
  obtain ⟨before, piece, behind, found, -, -, read, -⟩ := Scan.occurrences_fault located
  exact Declaration.read_lenient_not_mismatch read

namespace Declaration

theorem lenient_drops_mismatches (text : Text) :
    (∀ d, read false text = .ok d → read true text = .ok d) ∧
    (∀ fault, read false text = .error fault → ¬ fault.IsMismatch →
      read true text = .error fault) ∧
    (∀ name kind actual, read false text = .error (.kindMismatch name kind actual) →
      ∃ segments d, Segments text segments ∧ read true text = .ok d ∧ d.name = name ∧
        d.kind = kind ∧ Keeps segments .value kind d.value ∧
        Keeps segments .fallback kind d.fallback) ∧
    ∀ reach,
      (∀ found, scan ⟨reach, false⟩ text = .ok found → scan ⟨reach, true⟩ text = .ok found) ∧
      ∀ fault, scan ⟨reach, true⟩ text = .error fault → ¬ fault.cause.IsMismatch := by
  refine ⟨fun d => read_lenient_ok, fun fault => read_lenient_error, ?_, ?_⟩
  · intro name kind actual
    exact read_lenient_drops
  · intro reach
    exact ⟨fun found => scan_lenient_ok, fun fault => scan_lenient_not_mismatch⟩

theorem dropped_literal_hides_no_flaw :
    let mixed := "$\x7b\x7bname: 'n', type: NUMBER, value: no, defaultValue: 7, ".toList ++
      "value: 8\x7d\x7d".toList
    let kept : Declaration := ⟨['n'], .number, none, some (.number (.ofDecimal ⟨false, 7, 0⟩))⟩
    let sound := "$\x7b\x7bname: n, value: no\x7d\x7d".toList
    let d : Declaration := ⟨['n'], .unknown, some (.raw "no".toList), none⟩
    let nameless := "$\x7b\x7btype: NUMBER, value: no\x7d\x7d".toList
    (read false mixed = .error (.kindMismatch ['n'] .number .unknown) ∧
      read true mixed = .ok kept ∧ ∃ segments, Segments mixed segments ∧
        Keeps segments .value .number none ∧ Keeps segments .fallback .number kept.fallback) ∧
      (read true sound = .ok d ∧ scan ⟨.lazy, true⟩ sound = .ok [⟨d, 0, 23⟩]) ∧
      read true nameless = .error (.missingName nameless) ∧
      scan ⟨.greedy, true⟩ nameless = .error ⟨⟨1, 1, 0⟩, .missingName nameless⟩ ∧
      ¬ (Fault.missingName nameless).IsMismatch := by
  intro mixed kept sound d nameless
  have refused : read false mixed = .error (.kindMismatch ['n'] .number .unknown) := by
    decide +kernel
  have loose : read true mixed = .ok kept := by decide +kernel
  have strict : read false sound = .ok d := by decide +kernel
  have scanned : scan ⟨.lazy, false⟩ sound = .ok [⟨d, 0, 23⟩] := by decide +kernel
  have unnamed : read false nameless = .error (.missingName nameless) := by decide +kernel
  have failed : scan ⟨.greedy, true⟩ nameless = .error ⟨⟨1, 1, 0⟩, .missingName nameless⟩ := by
    decide +kernel
  obtain ⟨segments, made, cut, read, -, -, value, fallback⟩ :=
    (lenient_drops_mismatches mixed).2.2.1 ['n'] .number .unknown refused
  obtain rfl : kept = made := Except.ok.inj (loose.symm.trans read)
  have other := ((lenient_drops_mismatches nameless).2.2.2 .greedy).2 _ failed
  have sameFault := (lenient_drops_mismatches nameless).2.1 _ unnamed other
  have alike := (lenient_drops_mismatches sound).1 d strict
  have found := ((lenient_drops_mismatches sound).2.2.2 .lazy).1 _ scanned
  exact ⟨⟨refused, loose, segments, cut, value, fallback⟩, ⟨alike, found⟩, sameFault, failed,
    other⟩

end Declaration
end Stencil
