/-! # Repeating a step until nothing changes -/

namespace Assembler

/-- Repeat a step until it changes nothing, at most `limit` times. With a limit that the number of
    changing steps cannot reach, the result is a fixed point of the step. -/
def stabilize {α : Type} [DecidableEq α] (step : α → α) : (limit : Nat) → α → α
  | 0, x => x
  | limit + 1, x =>
      let next := step x
      if next = x then x else stabilize step limit next

theorem stabilize_preserves {α : Type} [DecidableEq α] {P : α → Prop} {step : α → α}
    (h : ∀ x, P x → P (step x)) (limit : Nat) {x : α} (hx : P x) : P (stabilize step limit x) := by
  induction limit generalizing x with
  | zero => exact hx
  | succ limit ih =>
      simp only [stabilize]
      split
      · exact hx
      · exact ih (h x hx)

/-- A step that can only raise a bounded measure comes to rest. The limit has to make up for what
    the measure still lacks at the start. -/
theorem step_stabilize {α : Type} [DecidableEq α] {P : α → Prop} {step : α → α}
    (measure : α → Nat) (bound : Nat) (keeps : ∀ x, P x → P (step x))
    (bounded : ∀ x, P x → measure x ≤ bound)
    (grows : ∀ x, P x → step x ≠ x → measure x < measure (step x))
    (limit : Nat) {x : α} (hx : P x) (room : bound ≤ limit + measure x) :
    step (stabilize step limit x) = stabilize step limit x := by
  induction limit generalizing x with
  | zero =>
      by_cases moved : step x = x
      · exact moved
      · have := grows x hx moved
        have := bounded (step x) (keeps x hx)
        omega
  | succ limit ih =>
      simp only [stabilize]
      split
      · next same => exact same
      · next moved =>
          have := grows x hx moved
          exact ih (keeps x hx) (by omega)

end Assembler
