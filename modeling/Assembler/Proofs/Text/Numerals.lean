import Assembler.Proofs.Text.Literals
import Mathlib.Data.List.Forall2
import Mathlib.Data.Nat.Digits.Defs

/-! # Digits denote numbers in positional notation

Reading goes through the digits from the left and keeps the number so far, while positional notation
counts powers of the base from the right. What is read so far stands in front of all that follows.
-/

namespace Assembler

namespace Text

/-- A character is a digit of a base, in either case, with this value. -/
def IsDigitOf (base : Nat) (c : Char) (d : Nat) : Prop :=
  d < base ∧ c.toLower = Nat.digitChar d

/-- Digits, at least one, denote a number in positional notation. -/
def Numeral (base : Nat) (digits : List Char) (n : Nat) : Prop :=
  ∃ ds, ds ≠ [] ∧ List.Forall₂ (IsDigitOf base) digits ds ∧ n = Nat.ofDigits base ds.reverse

theorem toNat_toLower (c : Char) :
    c.toLower.toNat = if 65 ≤ c.toNat ∧ c.toNat ≤ 90 then c.toNat + 32 else c.toNat := by
  have bounds : c.val ≥ 'A'.val ∧ c.val ≤ 'Z'.val ↔ 65 ≤ c.toNat ∧ c.toNat ≤ 90 := Iff.rfl
  unfold Char.toLower
  split
  · next upper =>
      have range := bounds.1 upper
      have sum : (c.val + ('a'.val - 'A'.val)).toNat = (c.toNat + 32) % 2 ^ 32 :=
        UInt32.toNat_add _ _
      rw [if_pos range]
      exact sum.trans (by omega)
  · next other => rw [if_neg (mt bounds.2 other)]

theorem toNat_digits : ('0'.toNat = 48 ∧ '9'.toNat = 57) ∧ ('a'.toNat = 97 ∧ 'f'.toNat = 102) ∧
    'A'.toNat = 65 ∧ 'F'.toNat = 70 :=
  ⟨⟨rfl, rfl⟩, ⟨rfl, rfl⟩, rfl, rfl⟩

theorem toNat_digitChar {d : Nat} (h : d < 16) :
    (Nat.digitChar d).toNat = if d < 10 then 48 + d else 87 + d := by
  revert d
  decide

theorem digitValue?_eq_some_iff {base : Nat} {c : Char} {d : Nat} (small : base ≤ 16) :
    digitValue? base c = some d ↔ IsDigitOf base c d := by
  have le : ∀ {a b : Char}, a ≤ b ↔ a.toNat ≤ b.toNat := Iff.rfl
  rw [digitValue?, Option.filter_eq_some_iff, decide_eq_true_eq, IsDigitOf, and_comm]
  refine and_congr_right fun inside => ?_
  rw [← Char.toNat_inj, toNat_toLower, toNat_digitChar (by omega)]
  have ranges := toNat_digits
  simp only [le]
  -- the ranges of characters are disjoint, and so are those of their values
  split
  · simp only [Option.some.injEq]
    split <;> split <;> omega
  · split
    · simp only [Option.some.injEq]
      split <;> split <;> omega
    · split
      · simp only [Option.some.injEq]
        split <;> split <;> omega
      · simp only [reduceCtorEq, false_iff]
        split <;> split <;> omega

section Numerals

variable {base : Nat} {digits : List Char} {n : Nat}

theorem digitsFrom?_eq_some_iff (small : base ≤ 16) (read : Nat) :
    digitsFrom? base read digits = some n ↔ ∃ ds, List.Forall₂ (IsDigitOf base) digits ds ∧
      n = Nat.ofDigits base ds.reverse + base ^ ds.length * read := by
  induction digits generalizing read with
  | nil => simp [digitsFrom?, eq_comm]
  | cons c digits ih =>
      rw [digitsFrom?]
      constructor
      · intro h
        split at h
        · next d first =>
            obtain ⟨ds, others, rfl⟩ := (ih _).1 h
            refine ⟨d :: ds, .cons ((digitValue?_eq_some_iff small).1 first) others, ?_⟩
            rw [Nat.ofDigits_reverse_cons, List.length_cons, pow_succ]
            ring
        · cases h
      · rintro ⟨_, digit, rfl⟩
        cases digit with
        | @cons _ d _ ds first others =>
            rw [(digitValue?_eq_some_iff small).2 first]
            refine (ih _).2 ⟨ds, others, ?_⟩
            rw [Nat.ofDigits_reverse_cons, List.length_cons, pow_succ]
            ring

theorem natOfDigits?_eq_some_iff (small : base ≤ 16) :
    natOfDigits? base digits = some n ↔ Numeral base digits n := by
  cases digits with
  | nil =>
      simp only [natOfDigits?, reduceCtorEq, false_iff]
      rintro ⟨ds, filled, digit, -⟩
      cases digit
      exact filled rfl
  | cons c digits =>
      have read : natOfDigits? base (c :: digits) = digitsFrom? base 0 (c :: digits) := rfl
      rw [read, digitsFrom?_eq_some_iff small]
      constructor
      · rintro ⟨ds, digit, rfl⟩
        refine ⟨ds, ?_, digit, by simp⟩
        rintro rfl
        cases digit
      · rintro ⟨ds, -, digit, rfl⟩
        exact ⟨ds, digit, by simp⟩

theorem exists_digitsFrom? (h : ∀ c ∈ digits, ∃ d, digitValue? base c = some d) (read : Nat) :
    ∃ n, digitsFrom? base read digits = some n := by
  induction digits generalizing read with
  | nil => exact ⟨read, rfl⟩
  | cons c digits ih =>
      obtain ⟨⟨d, first⟩, others⟩ := List.forall_mem_cons.1 h
      rw [digitsFrom?, first]
      exact ih others _

theorem exists_numeral (small : base ≤ 16) (filled : digits ≠ [])
    (h : ∀ c ∈ digits, ∃ d, digitValue? base c = some d) : ∃ n, Numeral base digits n := by
  obtain ⟨n, read⟩ := exists_digitsFrom? h 0
  exact ⟨n, (natOfDigits?_eq_some_iff small).1 ((natOfDigits?_of_ne_nil base filled).trans read)⟩

theorem Numeral.isDigitOf_of_mem (h : Numeral base digits n) :
    ∀ c ∈ digits, ∃ d, IsDigitOf base c d := by
  obtain ⟨ds, -, digit, -⟩ := h
  have each := digit.imp fun c d known => And.intro (Exists.intro d known) known
  exact ((List.forall₂_and_left digits ds).1 each).1

theorem Numeral.not_mem (small : base ≤ 16) (h : Numeral base digits n) {c : Char}
    (other : digitValue? base c = none) : c ∉ digits := by
  intro member
  obtain ⟨d, known⟩ := h.isDigitOf_of_mem c member
  rw [(digitValue?_eq_some_iff small).2 known] at other
  cases other

end Numerals

/-! ### Printed addresses -/

theorem digitsFrom?_append (base read : Nat) (digits more : List Char) :
    digitsFrom? base read (digits ++ more) =
      (digitsFrom? base read digits).bind fun n => digitsFrom? base n more := by
  induction digits generalizing read with
  | nil => rfl
  | cons c digits ih =>
      simp only [List.cons_append, digitsFrom?]
      cases digitValue? base c with
      | none => rfl
      | some d => exact ih _

theorem digitValue?_toUpper {d : Nat} (h : d < 16) :
    digitValue? 16 (Nat.digitChar d).toUpper = some d := by
  revert d
  decide

theorem digitsFrom?_toUpper (n : Nat) :
    digitsFrom? 16 0 ((Nat.toDigits 16 n).map Char.toUpper) = some n := by
  induction n using Nat.strongRecOn with
  | _ n ih =>
      by_cases small : n < 16
      · simp [Nat.toDigits_of_lt_base small, digitsFrom?, digitValue?_toUpper small]
      · have last := digitValue?_toUpper (Nat.mod_lt n (by decide : 0 < 16))
        rw [Nat.toDigits_of_base_le (by decide) (Nat.le_of_not_lt small), List.map_append,
          digitsFrom?_append, ih (n / 16) (by omega)]
        simp only [Option.bind_some, List.map_cons, List.map_nil, digitsFrom?, last]
        rw [Nat.div_add_mod]

theorem digitsFrom?_zeros (count : Nat) (digits : List Char) :
    digitsFrom? 16 0 (List.replicate count '0' ++ digits) = digitsFrom? 16 0 digits := by
  induction count with
  | zero => rfl
  | succ count ih => exact ih

theorem numeral_upperHex (width n : Nat) : Numeral 16 (upperHex width n).toList n := by
  have filled : (Nat.toDigits 16 n).map Char.toUpper ≠ [] := by simp [Nat.toDigits_ne_nil]
  rw [← natOfDigits?_eq_some_iff (by decide), upperHex, String.toList_ofList,
    natOfDigits?_of_ne_nil 16 (List.append_ne_nil_of_right_ne_nil _ filled), digitsFrom?_zeros,
    digitsFrom?_toUpper]

end Text

end Assembler
