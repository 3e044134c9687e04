import Assembler.Isa.Range
import Mathlib

/-! # Fitting a value and reading it back

A field keeps the residue of a value modulo the number of values that it can hold. Within the range
that `fit` checks the residue determines the value, so reading the field with the same sign gives
the value back.
-/

namespace Assembler

@[simp] theorem capacity_eq (bits : Nat) : capacity bits = 2 ^ bits :=
  Nat.one_shiftLeft bits

theorem toNat_lowMask {width : Nat} (h : width ≤ 32) : (lowMask width).toNat = 2 ^ width - 1 := by
  unfold lowMask
  split
  · next narrow =>
      have small : 2 ^ width < 2 ^ 32 := Nat.pow_lt_pow_right (by decide) narrow
      have positive : 0 < 2 ^ width := Nat.two_pow_pos width
      have power : ((1 : UInt32) <<< UInt32.ofNat width).toNat = 2 ^ width := by
        rw [UInt32.toNat_shiftLeft, UInt32.toNat_ofNat', Nat.mod_eq_of_lt (a := width) (by omega),
          Nat.mod_eq_of_lt narrow, UInt32.toNat_one, Nat.one_shiftLeft, Nat.mod_eq_of_lt small]
      have one_le : (1 : UInt32) ≤ (1 : UInt32) <<< UInt32.ofNat width := by
        rw [UInt32.le_iff_toNat_le, power, UInt32.toNat_one]
        exact positive
      rw [UInt32.toNat_sub_of_le _ _ one_le, power, UInt32.toNat_one]
  · next wide =>
      have full : width = 32 := by omega
      subst full
      rfl

theorem toNat_and_lowMask {width : Nat} (h : width ≤ 32) (word : UInt32) :
    (word &&& lowMask width).toNat = word.toNat % 2 ^ width := by
  rw [UInt32.toNat_and, toNat_lowMask h, Nat.and_two_pow_sub_one_eq_mod]

theorem and_lowMask_of_lt {width : Nat} (narrow : width ≤ 32) {word : UInt32}
    (h : word.toNat < 2 ^ width) : word &&& lowMask width = word := by
  apply UInt32.toNat_inj.1
  rw [toNat_and_lowMask narrow, Nat.mod_eq_of_lt h]

theorem and_lowMask_of_le {width : Nat} (h : 32 ≤ width) (word : UInt32) :
    word &&& lowMask width = word := by
  have full : lowMask width = -1 := by
    rw [lowMask, if_neg (Nat.not_lt.2 h)]
    decide
  rw [full, UInt32.and_neg_one]

theorem toNat_wordOfInt (value : Int) : ((wordOfInt value).toNat : Int) = value % 2 ^ 32 := by
  rw [wordOfInt, UInt32.toNat_ofNat']
  simp only [UInt32.size]
  omega

/-- The range of a field. -/
def InRange (value : Int) (bits : Nat) (signed : Bool) : Prop :=
  if signed then -(2 ^ (bits - 1) : Int) ≤ value ∧ value < 2 ^ (bits - 1)
  else 0 ≤ value ∧ value < 2 ^ bits

theorem fit_eq_ok_iff {value : Int} {bits : Nat} {signed : Bool} {word : UInt32} :
    fit value bits signed = .ok word ↔
      InRange value bits signed ∧ word = wordOfInt value &&& lowMask bits := by
  cases signed with
  | false =>
      simp only [fit, InRange, capacity_eq, Bool.false_eq_true, if_false, Nat.cast_pow,
        Nat.cast_ofNat]
      split
      · next inside => simp [inside, eq_comm]
      · next outside => simp [outside]
  | true =>
      simp only [fit, InRange, capacity_eq, if_true, Nat.cast_pow, Nat.cast_ofNat]
      split
      · next inside => simp [inside, eq_comm]
      · next outside => simp [outside]

theorem exists_fit_iff {value : Int} {bits : Nat} {signed : Bool} :
    (∃ word, fit value bits signed = .ok word) ↔ InRange value bits signed := by
  simp only [fit_eq_ok_iff, exists_and_left, exists_eq, and_true]

theorem toNat_of_fit_eq_ok {value : Int} {bits : Nat} {signed : Bool} {word : UInt32}
    (narrow : bits ≤ 32) (h : fit value bits signed = .ok word) :
    (word.toNat : Int) = value % 2 ^ bits := by
  obtain ⟨-, rfl⟩ := fit_eq_ok_iff.1 h
  have divides : (2 ^ bits : Int) ∣ 2 ^ 32 := pow_dvd_pow 2 narrow
  calc
    (((wordOfInt value &&& lowMask bits).toNat : Nat) : Int)
      = (wordOfInt value).toNat % 2 ^ bits := by rw [toNat_and_lowMask narrow]; push_cast; rfl
    _ = value % 2 ^ 32 % 2 ^ bits := by rw [toNat_wordOfInt]
    _ = value % 2 ^ bits := Int.emod_emod_of_dvd value divides

/-! Balanced residues modulo a power of two are the numbers of a signed field. -/

theorem two_pow_eq_double {bits : Nat} (positive : 0 < bits) : 2 ^ bits = 2 * 2 ^ (bits - 1) := by
  rw [← pow_succ', Nat.sub_add_cancel positive]

theorem inRange_bmod (x : Int) {bits : Nat} (positive : 0 < bits) :
    InRange (x.bmod (2 ^ bits)) bits true := by
  have low := Int.le_bmod (x := x) (Nat.two_pow_pos bits)
  have high := Int.bmod_lt (x := x) (Nat.two_pow_pos bits)
  simp only [InRange, if_true]
  push_cast [two_pow_eq_double positive] at low high ⊢
  omega

theorem bmod_of_inRange {x : Int} {bits : Nat} (positive : 0 < bits) (h : InRange x bits true) :
    x.bmod (2 ^ bits) = x := by
  simp only [InRange, if_true] at h
  apply Int.bmod_eq_of_le <;> push_cast [two_pow_eq_double positive] <;> omega

theorem signExtend_of_fit {value : Int} {bits : Nat} {word : UInt32} (positive : 0 < bits)
    (narrow : bits ≤ 32) (h : fit value bits true = .ok word) : signExtend word bits = value := by
  have residue : (word.toNat : Int) = value % (2 ^ bits : Nat) := by
    rw [toNat_of_fit_eq_ok narrow h]
    push_cast
    rfl
  rw [signExtend, capacity_eq, residue, Int.emod_bmod]
  exact bmod_of_inRange positive (fit_eq_ok_iff.1 h).1

/-- A signed field holds every value that is read from its bits, and the value fills them again. -/
theorem fit_signExtend (word : UInt32) {bits : Nat} (positive : 0 < bits) (narrow : bits ≤ 32) :
    fit (signExtend word bits) bits true = .ok (word &&& lowMask bits) := by
  have extended : signExtend word bits = Int.bmod word.toNat (2 ^ bits) := by
    rw [signExtend, capacity_eq]
  have range : InRange (signExtend word bits) bits true := extended ▸ inRange_bmod _ positive
  obtain ⟨low, fits⟩ := exists_fit_iff.2 range
  have residue : (low.toNat : Int) = word.toNat % 2 ^ bits := by
    calc
      (low.toNat : Int) = signExtend word bits % 2 ^ bits := toNat_of_fit_eq_ok narrow fits
      _ = (word.toNat : Int) % 2 ^ bits := by
        rw [extended]
        exact_mod_cast Int.bmod_emod
  have same : low = word &&& lowMask bits := by
    apply UInt32.toNat_inj.1
    rw [toNat_and_lowMask narrow]
    exact_mod_cast residue
  rw [fits, same]

theorem toNat_of_fit_unsigned {value : Int} {bits : Nat} {word : UInt32} (narrow : bits ≤ 32)
    (h : fit value bits false = .ok word) : (word.toNat : Int) = value := by
  obtain ⟨low, high⟩ : 0 ≤ value ∧ value < 2 ^ bits := (fit_eq_ok_iff.1 h).1
  rw [toNat_of_fit_eq_ok narrow h, Int.emod_eq_of_lt low high]

theorem toNat_lt_of_fit {value : Int} {bits : Nat} {signed : Bool} {word : UInt32}
    (narrow : bits ≤ 32) (h : fit value bits signed = .ok word) : word.toNat < 2 ^ bits := by
  have residue := toNat_of_fit_eq_ok narrow h
  have bound : value % 2 ^ bits < 2 ^ bits := Int.emod_lt_of_pos value (by positivity)
  exact_mod_cast residue ▸ bound

theorem fitWord_eq_ok {value : Int} {bits : Nat} {word : UInt32}
    (h : fitWord value bits = .ok word) : ∃ signed, fit value bits signed = .ok word := by
  unfold fitWord at h
  cases attempt : fit value bits false with
  | ok unsigned =>
      rw [attempt] at h
      exact ⟨false, attempt.trans h⟩
  | error cause =>
      rw [attempt] at h
      exact ⟨true, h⟩

theorem exists_fitWord_iff {value : Int} {bits : Nat} :
    (∃ word, fitWord value bits = .ok word) ↔
      -(2 ^ (bits - 1) : Int) ≤ value ∧ value < 2 ^ bits := by
  have either : (∃ word, fitWord value bits = .ok word) ↔
      InRange value bits false ∨ InRange value bits true := by
    rw [← exists_fit_iff, ← exists_fit_iff]
    unfold fitWord
    cases fit value bits false with
    | ok word => simp
    | error cause => simp
  have half : (0 : Int) < 2 ^ (bits - 1) := by positivity
  have monotone : (2 ^ (bits - 1) : Int) ≤ 2 ^ bits := pow_le_pow_right₀ (by decide) (by omega)
  rw [either]
  simp only [InRange, Bool.false_eq_true, if_false, if_true]
  omega

theorem eq_of_fitWord_toNat {address word : UInt32} {bits : Nat}
    (h : fitWord (address.toNat : Int) bits = .ok word) : word = address := by
  have inside : (address.toNat : Int) < 2 ^ bits := by
    obtain ⟨signed, fits⟩ := fitWord_eq_ok h
    have range := (fit_eq_ok_iff.1 fits).1
    have monotone : (2 ^ (bits - 1) : Int) ≤ 2 ^ bits := pow_le_pow_right₀ (by decide) (by omega)
    cases signed with
    | false => exact range.2
    | true => exact lt_of_lt_of_le range.2 monotone
  have same : wordOfInt (address.toNat : Int) = address := by
    have bound := address.toNat_lt
    have value := toNat_wordOfInt (address.toNat : Int)
    apply UInt32.toNat_inj.1
    omega
  obtain ⟨signed, fits⟩ := fitWord_eq_ok h
  rw [(fit_eq_ok_iff.1 fits).2, same]
  rcases Nat.le_total bits 32 with narrow | wide
  · exact and_lowMask_of_lt narrow (by exact_mod_cast inside)
  · exact and_lowMask_of_le wide address

end Assembler
