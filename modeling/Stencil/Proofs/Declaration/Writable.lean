import Stencil.Proofs.Declaration.RoundTrip
import Stencil.Proofs.Literal.Legible

/-
Nothing is escaped in a written declaration, so not every declaration can be written: one whose name
or values would be taken apart at a comma, a line feed or a quote reads back as another or not at
all. The well formed declarations are exactly those that come back.
-/
namespace Stencil

namespace Value

/-- Equal numbers are finite together, even where they differ in the sign of a zero. -/
theorem equal_embeddable {a b : Value} {kind : Kind} (same : a.equal b)
    (sound : a.kind = kind ∧ a.Embeddable) : b.kind = kind ∧ b.Embeddable := by
  rcases equal_cases same with rfl | ⟨n, m, rfl, rfl, close⟩
  · exact sound
  · exact ⟨sound.1, Binary64.equal_isFinite close sound.2⟩

end Value

namespace Declaration

theorem sameValue_self {kind : Kind} {value : Option Value}
    (sound : ∀ v ∈ value, v.kind = kind ∧ v.Embeddable) : sameValue value value := by
  cases value with
  | none => rfl
  | some v => exact Value.equal_self (sound v rfl).2.legible

theorem sameValue_isSome {a b : Option Value} (same : sameValue a b) : a.isSome = b.isSome := by
  cases a <;> cases b <;> simp_all [sameValue]

theorem sameValue_sound {kind : Kind} {a b : Option Value} (same : sameValue a b)
    (sound : ∀ v ∈ a, v.kind = kind ∧ v.Embeddable) :
    ∀ v ∈ b, v.kind = kind ∧ v.Embeddable := by
  rintro v ⟨rfl⟩
  cases a with
  | none => cases same
  | some u => exact Value.equal_embeddable same (sound u rfl)

theorem equal_iff {a b : Declaration} :
    a.equal b ↔ a.name = b.name ∧ a.kind = b.kind ∧ sameValue a.value b.value ∧
      sameValue a.fallback b.fallback := by
  simp [equal, and_assoc]

theorem equal_self {d : Declaration} (readable : d.Readable) : d.equal d :=
  equal_iff.mpr ⟨rfl, rfl, sameValue_self readable.value, sameValue_self readable.fallback⟩

theorem equal_wellFormed {a b : Declaration} (same : a.equal b) (wellFormed : a.WellFormed) :
    b.WellFormed := by
  obtain ⟨name, kind, value, fallback⟩ := equal_iff.mp same
  refine ⟨⟨?_, ?_, ?_⟩, ?_⟩
  · exact name ▸ wellFormed.name
  · exact kind ▸ sameValue_sound value wellFormed.value
  · exact kind ▸ sameValue_sound fallback wellFormed.fallback
  · rw [← sameValue_isSome value, ← sameValue_isSome fallback]
    exact wellFormed.offers

theorem reread_wellFormed {lenient : Bool} {d again : Declaration}
    (reread : read lenient d.write = .ok again) (same : again.equal d) : again.WellFormed := by
  have readable := read_readable reread
  refine ⟨readable, ?_⟩
  rw [Option.isSome_iff_ne_none, Option.isSome_iff_ne_none, ← not_and_or]
  -- offering nothing, it would be `d` itself, and what `d` writes could not have been read
  rintro ⟨value, fallback⟩
  obtain ⟨name, kind, first, second⟩ := equal_iff.mp same
  have noValue : d.value = none := by
    rw [← Option.not_isSome_iff_eq_none, ← sameValue_isSome first, value]
    simp
  have noFallback : d.fallback = none := by
    rw [← Option.not_isSome_iff_eq_none, ← sameValue_isSome second, fallback]
    simp
  have itself : again = d := by
    cases again
    cases d
    simp_all
  rw [itself] at readable
  rw [read_write_without_value readable noValue noFallback lenient] at reread
  cases reread

theorem read_write_iff (lenient : Bool) (d : Declaration) :
    (read lenient d.write = .ok d ↔ d.WellFormed) ∧
      ((∃ again, read lenient d.write = .ok again ∧ again.equal d) ↔ d.WellFormed) := by
  have back (wellFormed : d.WellFormed) : read lenient d.write = .ok d :=
    read_write wellFormed lenient
  refine ⟨⟨fun same => ?_, back⟩, ⟨?_, fun wellFormed => ?_⟩⟩
  · have readable := read_readable same
    exact reread_wellFormed same (equal_self readable)
  · rintro ⟨again, reread, same⟩
    exact equal_wellFormed same (reread_wellFormed reread same)
  · exact ⟨d, back wellFormed, equal_self wellFormed.toReadable⟩

-- A comma in a name or in a string starts a property of its own.
example :
    let renamed : Declaration :=
      ⟨"a, type: NULL, value: null".toList, .string, some (.string ['y']), none⟩
    let parted : Declaration :=
      ⟨['a'], .string, some (.string "x', defaultValue: 'y".toList), none⟩
    read false renamed.write = .ok ⟨['a'], .null, some .null, none⟩ ∧
      read false parted.write = .ok ⟨['a'], .string, some (.string ['x']), some (.string ['y'])⟩ := by
  decide +kernel

end Declaration
end Stencil
