import Assembler.Collections.Fixpoint

/-! # Rounds that end by themselves

The limit of `stabilize` is a bound and not a reason to stop. Where its result is a fixed point, the
rounds without any limit end there too, at the first one that changes nothing.
-/

namespace Assembler

/-- Rounds of a step from the first to the last value: each changes it, until one does not. -/
inductive ComesToRest {α : Type} (step : α → α) : α → α → Prop where
  | rest {x : α} (same : step x = x) : ComesToRest step x x
  | round {x y : α} (changed : step x ≠ x) (later : ComesToRest step (step x) y) :
      ComesToRest step x y

theorem comesToRest_stabilize {α : Type} [DecidableEq α] {step : α → α} {limit : Nat} {x : α}
    (fixed : step (stabilize step limit x) = stabilize step limit x) :
    ComesToRest step x (stabilize step limit x) := by
  induction limit generalizing x with
  | zero => exact .rest fixed
  | succ limit ih =>
      simp only [stabilize] at fixed ⊢
      split at fixed
      · next same =>
          rw [if_pos same]
          exact .rest same
      · next changed =>
          rw [if_neg changed]
          exact .round changed (ih fixed)

end Assembler
