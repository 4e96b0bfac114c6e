import Mathlib.Tactic.Common

/-!
# Computations that may fail

What it takes for a sequence of steps, or for a check and what follows it, to succeed.
-/

namespace Lib

variable {ε α β : Type} {b : β}

theorem bind_eq_ok {x : Except ε α} {f : α → Except ε β} :
    (x >>= f) = .ok b ↔ ∃ a, x = .ok a ∧ f a = .ok b := by
  cases x with
  | error e => simp [bind, Except.bind]
  | ok a => simp [bind, Except.bind]

theorem ite_error_eq_ok {p : Prop} [Decidable p] {e : ε} {x : Except ε β} :
    (if p then .error e else x) = .ok b ↔ ¬p ∧ x = .ok b := by
  by_cases hp : p <;> simp [hp]

end Lib
