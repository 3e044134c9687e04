import Mathlib.Computability.MyhillNerode

/-! # Patterns: languages put together from sorts of characters

What a text must look like is written as a language: a sort of character, languages side by side,
one behind the other or repeated. What may stand behind a first character is then found by
rewriting, since it follows the pattern: the language behind a character of a product is that of its
first factor in front of the others, as long as the first factor is never empty.
-/

open Computability

namespace Assembler.Pattern

/-- One character of a sort. -/
def one (p : Char → Bool) : Language Char := {text | ∃ c, p c = true ∧ text = [c]}

/-- A given character. -/
abbrev lit (c : Char) : Language Char := one (· == c)

/-- At least one character of a sort. -/
abbrev many (p : Char → Bool) : Language Char := one p * (one p)∗

/-- A text of a language, or nothing. -/
def maybe (L : Language Char) : Language Char := 1 + L

/-- The texts that may stand behind a first character. -/
def after (L : Language Char) (c : Char) : Language Char := L.leftQuotient [c]

variable {L M : Language Char} {p : Char → Bool} {c : Char} {text : List Char}

/-! ### Which patterns have the empty text, and which have any -/

@[simp] theorem nil_notMem_one : [] ∉ one p := by
  rintro ⟨_, _, same⟩
  cases same

@[simp] theorem nil_mem_add : [] ∈ L + M ↔ [] ∈ L ∨ [] ∈ M := Language.mem_add L M []

@[simp] theorem nil_mem_mul : [] ∈ L * M ↔ [] ∈ L ∧ [] ∈ M := by
  simp [Language.mem_mul]

@[simp] theorem nil_mem_kstar : [] ∈ L∗ := Language.nil_mem_kstar L

@[simp] theorem exists_mem_one : (∃ text, text ∈ one p) ↔ ∃ c, p c = true := by
  constructor
  · rintro ⟨_, c, sort, -⟩
    exact ⟨c, sort⟩
  · rintro ⟨c, sort⟩
    exact ⟨[c], c, sort, rfl⟩

@[simp] theorem exists_mem_add :
    (∃ text, text ∈ L + M) ↔ (∃ text, text ∈ L) ∨ ∃ text, text ∈ M := by
  simp only [Language.mem_add, exists_or]

@[simp] theorem exists_mem_mul :
    (∃ text, text ∈ L * M) ↔ (∃ text, text ∈ L) ∧ ∃ text, text ∈ M := by
  constructor
  · rintro ⟨_, front, inside, back, behind, -⟩
    exact ⟨⟨front, inside⟩, back, behind⟩
  · rintro ⟨⟨front, inside⟩, back, behind⟩
    exact ⟨front ++ back, Language.append_mem_mul inside behind⟩

@[simp] theorem maybe_zero : maybe 0 = 1 := add_zero 1

@[simp] theorem nil_mem_maybe : [] ∈ maybe L := .inl rfl

@[simp] theorem exists_mem_maybe : ∃ text, text ∈ maybe L := ⟨[], nil_mem_maybe⟩

@[simp] theorem exists_mem_kstar : ∃ text, text ∈ L∗ := ⟨[], nil_mem_kstar⟩

/-! ### What stands behind a character -/

theorem mem_after : text ∈ after L c ↔ c :: text ∈ L := Iff.rfl

theorem cons_mem_one : c :: text ∈ one p ↔ p c = true ∧ text = [] := by
  constructor
  · rintro ⟨_, sort, same⟩
    cases same
    exact ⟨sort, rfl⟩
  · rintro ⟨sort, rfl⟩
    exact ⟨c, sort, rfl⟩

@[simp] theorem after_zero : after 0 c = 0 := rfl

@[simp] theorem after_nothing : after 1 c = 0 := by
  ext text
  simp [mem_after]

@[simp] theorem after_one : after (one p) c = if p c then 1 else 0 := by
  ext text
  rw [mem_after, cons_mem_one]
  split <;> simp_all

@[simp] theorem after_add : after (L + M) c = after L c + after M c := rfl

@[simp] theorem after_mul (solid : [] ∉ L) : after (L * M) c = after L c * M := by
  ext text
  rw [mem_after, Language.mem_mul, Language.mem_mul]
  constructor
  · rintro ⟨front, inside, back, behind, same⟩
    cases front with
    | nil => exact absurd inside solid
    | cons d front =>
        cases same
        exact ⟨front, inside, back, behind, rfl⟩
  · rintro ⟨front, inside, back, behind, rfl⟩
    exact ⟨c :: front, inside, back, behind, rfl⟩

@[simp] theorem after_maybe_mul (solid : [] ∉ L) :
    after (maybe L * M) c = after L c * M + after M c := by
  rw [maybe, add_mul, one_mul, after_add, after_mul solid, add_comm]

@[simp] theorem after_kstar_mul (solid : [] ∉ L) :
    after (L∗ * M) c = after L c * (L∗ * M) + after M c := by
  calc after (L∗ * M) c
      = after ((1 + L * L∗) * M) c := by rw [Language.one_add_self_mul_kstar_eq_kstar]
    _ = after (L * (L∗ * M)) c + after M c := by
        rw [add_mul, one_mul, mul_assoc, after_add, add_comm]
    _ = after L c * (L∗ * M) + after M c := by rw [after_mul solid]

@[simp] theorem after_kstar (solid : [] ∉ L) : after L∗ c = after L c * L∗ := by
  have behind := after_kstar_mul (M := 1) (c := c) solid
  rwa [mul_one, after_nothing, add_zero] at behind

/-! ### Runs of characters of a sort -/

theorem mem_kstar_one : text ∈ (one p)∗ ↔ ∀ c ∈ text, p c = true := by
  induction text with
  | nil => simp
  | cons c text ih =>
      rw [← mem_after, after_kstar nil_notMem_one, after_one, List.forall_mem_cons]
      split <;> simp_all

theorem mem_many : text ∈ many p ↔ text ≠ [] ∧ ∀ c ∈ text, p c = true := by
  cases text with
  | nil => simp
  | cons c text =>
      rw [← mem_after, after_mul nil_notMem_one, after_one, List.forall_mem_cons]
      split <;> simp_all [mem_kstar_one]

end Assembler.Pattern
