import Assembler.Dialect.Literal
import Assembler.Text.Escape
import Mathlib.Algebra.Group.Nat.Defs
import Mathlib.Tactic.Common

/-! # Reading back what is printed

Numerals and string literals denote the values that they were printed from.
-/

namespace Assembler

namespace Text

theorem digitValue?_of_isDigit {c : Char} (h : c.isDigit = true) :
    digitValue? 10 c = some (c.toNat - '0'.toNat) := by
  simp only [Char.isDigit, Bool.and_eq_true, decide_eq_true_eq] at h
  have range : '0' ≤ c ∧ c ≤ '9' := h
  have high : c.toNat ≤ 57 := h.2
  have small : c.toNat - 48 < 10 := by omega
  simp [digitValue?, range, Option.filter, small]

theorem digitsFrom?_of_isDigit {digits : List Char} (h : ∀ c ∈ digits, c.isDigit = true) (n : Nat) :
    digitsFrom? 10 n digits = some (Nat.ofDigitChars 10 digits n) := by
  induction digits generalizing n with
  | nil => rfl
  | cons c digits ih =>
      obtain ⟨first, others⟩ := List.forall_mem_cons.1 h
      rw [digitsFrom?, digitValue?_of_isDigit first]
      exact ih others _

theorem isDigit_of_mem_toDigits {n : Nat} : ∀ c ∈ Nat.toDigits 10 n, c.isDigit = true :=
  fun _ member => Nat.isDigit_of_mem_toDigits (by decide) (by decide) member

theorem natOfDigits?_of_ne_nil (base : Nat) {digits : List Char} (filled : digits ≠ []) :
    natOfDigits? base digits = digitsFrom? base 0 digits := by
  cases digits with
  | nil => exact absurd rfl filled
  | cons c digits => rfl

theorem natOfDigits?_toDigits (n : Nat) : natOfDigits? 10 (Nat.toDigits 10 n) = some n := by
  rw [natOfDigits?_of_ne_nil 10 Nat.toDigits_ne_nil,
    digitsFrom?_of_isDigit isDigit_of_mem_toDigits 0, Nat.ofDigitChars_ten_toDigits]

/-- A character is spelled by itself, unless it could not stand in a literal, or by an escape that
    decodes to it. -/
theorem escapeChar_cases (c : Char) :
    (escapeChar c = [c] ∧ c ≠ '\n' ∧ c ≠ '\r' ∧ c ≠ '\\' ∧ c ≠ '"') ∨
    ∃ e, escapeChar c = ['\\', e] ∧ e ≠ '\n' ∧ e ≠ '\r' ∧
      ∀ rest, unescape ('\\' :: e :: rest) = c :: unescape rest := by
  unfold escapeChar
  split
  · exact .inr ⟨'n', rfl, by decide, by decide, fun rest => by simp [unescape]⟩
  · exact .inr ⟨'r', rfl, by decide, by decide, fun rest => by simp [unescape]⟩
  · exact .inr ⟨'t', rfl, by decide, by decide, fun rest => by simp [unescape]⟩
  · exact .inr ⟨'\\', rfl, by decide, by decide, fun rest => by simp [unescape]⟩
  · exact .inr ⟨'"', rfl, by decide, by decide, fun rest => by simp [unescape]⟩
  · next newline return' _ backslash quote =>
      exact .inl ⟨rfl, newline, return', backslash, quote⟩

theorem unescape_cons {c : Char} (plain : c ≠ '\\') (rest : List Char) :
    unescape (c :: rest) = c :: unescape rest := by
  rw [unescape]
  all_goals simp_all

theorem unescape_escape (text : List Char) : unescape (text.flatMap escapeChar) = text := by
  induction text with
  | nil => simp [unescape]
  | cons c text ih =>
      rw [List.flatMap_cons]
      rcases escapeChar_cases c with ⟨spelled, -, -, plain, -⟩ | ⟨e, spelled, -, -, decodes⟩
      · rw [spelled, List.singleton_append, unescape_cons plain, ih]
      · rw [spelled, List.cons_append, List.singleton_append, decodes, ih]

theorem dropQuotes_stringLiteral (text : List Char) :
    dropQuotes (stringLiteral text) = text.flatMap escapeChar := by
  simp [dropQuotes, stringLiteral]

theorem length_unescape_le (text : List Char) : (unescape text).length ≤ text.length := by
  fun_induction unescape text with
  | case1 => exact Nat.le_refl _
  | case6 => exact Nat.zero_le _
  | _ =>
      simp only [List.length_cons]
      omega

theorem length_dropQuotes_le (text : List Char) : (dropQuotes text).length ≤ text.length := by
  simp only [dropQuotes, List.length_dropLast, List.length_tail]
  omega

end Text

namespace Literal

theorem toList_toString_nat (n : Nat) : (toString n).toList = Nat.toDigits 10 n := by
  rw [Nat.toString_eq_ofList_toDigits, String.toList_ofList]

theorem toList_toString_int (value : Int) : (toString value).toList =
    (if value < 0 then ['-'] else []) ++ Nat.toDigits 10 value.natAbs := by
  cases value with
  | ofNat n =>
      have positive : ¬Int.ofNat n < 0 := by simp
      rw [if_neg positive]
      exact toList_toString_nat n
  | negSucc n =>
      rw [if_pos (Int.negSucc_lt_zero n)]
      have printed : toString (Int.negSucc n) = "-" ++ toString (n + 1) := rfl
      rw [printed, String.toList_append, toList_toString_nat]
      rfl

theorem magnitude?_toDigits {n : Nat} (small : n < 2 ^ 63) :
    magnitude? 10 (Nat.toDigits 10 n) = some n := by
  have limit : 1 <<< 63 = 2 ^ 63 := rfl
  rw [magnitude?, Text.natOfDigits?_toDigits, limit, Option.filter_some]
  exact if_pos (decide_eq_true small)

/-- Digits have neither a sign nor the mark of a hexadecimal literal in front. -/
theorem splitSign_toDigits (n : Nat) :
    splitSign (Nat.toDigits 10 n) = (false, Nat.toDigits 10 n) := by
  unfold splitSign
  split
  · next rest same =>
      have digit := Text.isDigit_of_mem_toDigits '-' (same ▸ List.mem_cons_self)
      simp at digit
  · rfl

theorem afterHexMark?_toDigits (n : Nat) : afterHexMark? (Nat.toDigits 10 n) = none := by
  unfold afterHexMark?
  split
  case h_5 => rfl
  all_goals
    next same =>
      have digits : ∀ c ∈ Nat.toDigits 10 n, c.isDigit = true := Text.isDigit_of_mem_toDigits
      rw [same] at digits
      simp [Char.isDigit] at digits

theorem value?_toString {value : Int} (small : value.natAbs < 2 ^ 63) :
    value? ('#' :: (toString value).toList) = some value := by
  rw [toList_toString_int]
  have magnitude := magnitude?_toDigits small
  by_cases negative : value < 0
  · have sign : splitSign ('-' :: Nat.toDigits 10 value.natAbs) =
        (true, Nat.toDigits 10 value.natAbs) := rfl
    simp only [value?, negative, if_true, List.singleton_append, sign, afterHexMark?_toDigits,
      magnitude, Option.map_some, signed, Option.some.injEq]
    omega
  · simp only [value?, negative, if_false, List.nil_append, splitSign_toDigits,
      afterHexMark?_toDigits, magnitude, Option.map_some, signed, Option.some.injEq]
    simp only [Bool.false_eq_true, if_false]
    omega

theorem lt_of_magnitude? {base n : Nat} {digits : List Char} (h : magnitude? base digits = some n) :
    n < 2 ^ 63 := by
  have kept := (Option.filter_eq_some_iff.1 h).2
  simpa using kept

/-- Whatever its signs, a literal denotes a number whose negation has 64 bits too. -/
theorem natAbs_lt_of_value? {text : List Char} {value : Int} (h : value? text = some value) :
    value.natAbs < 2 ^ 63 := by
  have signs : ∀ (negative : Bool) (n : Nat), (signed negative n).natAbs = n := by
    intro negative n
    cases negative <;> simp [signed]
  unfold value? at h
  extract_lets text outer at h
  split at h
  all_goals
    obtain ⟨n, magnitude, rfl⟩ := Option.map_eq_some_iff.1 h
    rw [signs]
    exact lt_of_magnitude? magnitude

end Literal

end Assembler
