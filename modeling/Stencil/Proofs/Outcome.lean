import Stencil.Text.Basic

/-
How a chain of steps that may fail comes apart: it succeeds when every step does, and fails with the
fault of the first step that does not.
-/
namespace Stencil

variable {ε δ α β : Type}

theorem bind_eq_ok {outcome : Except ε α} {next : α → Except ε β} {result : β} :
    outcome >>= next = .ok result ↔ ∃ a, outcome = .ok a ∧ next a = .ok result := by
  cases outcome with
  | error fault => simp [bind, Except.bind]
  | ok a => simp [bind, Except.bind]

theorem bind_eq_error {outcome : Except ε α} {next : α → Except ε β} {fault : ε} :
    outcome >>= next = .error fault ↔
      outcome = .error fault ∨ ∃ a, outcome = .ok a ∧ next a = .error fault := by
  cases outcome with
  | error other => simp [bind, Except.bind]
  | ok a => simp [bind, Except.bind]

theorem map_eq_ok {outcome : Except ε α} {f : α → β} {result : β} :
    outcome.map f = .ok result ↔ ∃ a, outcome = .ok a ∧ f a = result := by
  cases outcome with
  | error fault => simp [Except.map]
  | ok a => simp [Except.map]

theorem map_eq_error {outcome : Except ε α} {f : α → β} {fault : ε} :
    outcome.map f = .error fault ↔ outcome = .error fault := by
  cases outcome <;> simp [Except.map]

theorem mapError_eq_ok {outcome : Except ε α} {f : ε → δ} {result : α} :
    outcome.mapError f = .ok result ↔ outcome = .ok result := by
  cases outcome with
  | error fault =>
    constructor
    · intro impossible
      cases impossible
    · intro impossible
      cases impossible
  | ok a =>
    change (Except.ok a : Except δ α) = .ok result ↔ _
    simp only [Except.ok.injEq]

theorem mapError_bind {outcome : Except ε α} {next : α → Except ε β} {f : ε → δ} :
    (outcome >>= next).mapError f = outcome.mapError f >>= fun a => (next a).mapError f := by
  cases outcome <;> rfl

end Stencil
