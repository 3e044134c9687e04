import Assembler.Isa.Basic
import Assembler.Proofs.Isa.Range

/-! # Bit ranges of a word

Placing a value in a range sets no bit outside it, and extracting a range looks at no other bit. So
ranges that share no bit do not disturb each other, and a word is put together from its fields by
`|||` without loss.
-/

namespace Assembler

namespace BitRange

/-- The range lies inside a word of `n` bits. -/
def Within (n : Nat) (r : BitRange) : Prop := r.lo ≤ r.hi ∧ r.hi < n

/-- The ranges share no bit. -/
def Disjoint (r s : BitRange) : Prop := r.hi < s.lo ∨ s.hi < r.lo

instance (n : Nat) (r : BitRange) : Decidable (r.Within n) :=
  inferInstanceAs (Decidable (_ ∧ _))

instance (r s : BitRange) : Decidable (r.Disjoint s) :=
  inferInstanceAs (Decidable (_ ∨ _))

variable {r s : BitRange}

theorem Disjoint.symm (h : r.Disjoint s) : s.Disjoint r := Or.symm h

theorem Within.width_le (h : r.Within 32) : r.width ≤ 32 := by
  obtain ⟨order, top⟩ := h
  simp only [width]
  omega

theorem moved_lt {n : Nat} (h : r.lo + r.width ≤ n) (x : Nat) :
    x % 2 ^ r.width * 2 ^ r.lo < 2 ^ n := by
  calc
    x % 2 ^ r.width * 2 ^ r.lo
      < 2 ^ r.width * 2 ^ r.lo :=
          Nat.mul_lt_mul_of_pos_right (Nat.mod_lt _ (Nat.two_pow_pos _)) (Nat.two_pow_pos _)
    _ = 2 ^ (r.lo + r.width) := by rw [← pow_add, Nat.add_comm]
    _ ≤ 2 ^ n := Nat.pow_le_pow_right (by decide) h

theorem toNat_place (h : r.lo + r.width ≤ 32) (value : UInt32) :
    (r.place value).toNat = value.toNat % 2 ^ r.width * 2 ^ r.lo := by
  have short : r.width ≤ 32 := by omega
  have low : r.lo < 32 := by
    simp only [width] at h
    omega
  rw [place, UInt32.toNat_shiftLeft, toNat_and_lowMask short, UInt32.toNat_ofNat',
    Nat.mod_eq_of_lt (a := r.lo) (by omega), Nat.mod_eq_of_lt low, Nat.shiftLeft_eq,
    Nat.mod_eq_of_lt (moved_lt h _)]

theorem toNat_place_lt {n : Nat} (narrow : n ≤ 32) (h : r.lo + r.width ≤ n) (value : UInt32) :
    (r.place value).toNat < 2 ^ n := by
  rw [toNat_place (by omega)]
  exact moved_lt h _

theorem toNat_extract (h : r.Within 32) (word : UInt32) :
    (r.extract word).toNat = word.toNat >>> r.lo % 2 ^ r.width := by
  have low : r.lo < 32 := by
    have := h.1
    have := h.2
    omega
  rw [extract, toNat_and_lowMask h.width_le, UInt32.toNat_shiftRight, UInt32.toNat_ofNat',
    Nat.mod_eq_of_lt (a := r.lo) (by omega), Nat.mod_eq_of_lt low]

theorem testBit_extract (h : r.Within 32) (word : UInt32) (i : Nat) :
    (r.extract word).toNat.testBit i = (decide (i < r.width) && word.toNat.testBit (r.lo + i)) := by
  rw [toNat_extract h, Nat.testBit_mod_two_pow, Nat.testBit_shiftRight]

theorem testBit_place (h : r.Within 32) (value : UInt32) (i : Nat) :
    (r.place value).toNat.testBit i =
      (decide (r.lo ≤ i) && decide (i ≤ r.hi) && value.toNat.testBit (i - r.lo)) := by
  obtain ⟨order, top⟩ := h
  have size : r.width = r.hi - r.lo + 1 := rfl
  rw [toNat_place (by omega), ← Nat.shiftLeft_eq, Nat.testBit_shiftLeft, Nat.testBit_mod_two_pow,
    ← Bool.and_assoc]
  congr 1
  rw [Bool.eq_iff_iff]
  simp only [Bool.and_eq_true, decide_eq_true_eq]
  omega

theorem extract_or (h : r.Within 32) (a b : UInt32) :
    r.extract (a ||| b) = r.extract a ||| r.extract b := by
  apply UInt32.toNat_inj.1
  apply Nat.eq_of_testBit_eq
  intro i
  rw [UInt32.toNat_or, Nat.testBit_or, testBit_extract h, testBit_extract h, testBit_extract h,
    UInt32.toNat_or, Nat.testBit_or, Bool.and_or_distrib_left]

theorem extract_place (h : r.Within 32) (value : UInt32) :
    r.extract (r.place value) = value &&& lowMask r.width := by
  apply UInt32.toNat_inj.1
  apply Nat.eq_of_testBit_eq
  intro i
  have size : r.width = r.hi - r.lo + 1 := rfl
  rw [toNat_and_lowMask h.width_le, Nat.testBit_mod_two_pow, testBit_extract h, testBit_place h,
    Nat.add_sub_cancel_left, ← Bool.and_assoc]
  congr 1
  obtain ⟨order, top⟩ := h
  rw [Bool.eq_iff_iff]
  simp only [Bool.and_eq_true, decide_eq_true_eq]
  omega

theorem extract_place_of_disjoint (hr : r.Within 32) (hs : s.Within 32) (apart : r.Disjoint s)
    (value : UInt32) : r.extract (s.place value) = 0 := by
  apply UInt32.toNat_inj.1
  apply Nat.eq_of_testBit_eq
  intro i
  rw [testBit_extract hr, testBit_place hs, UInt32.toNat_zero, Nat.zero_testBit]
  have size : r.width = r.hi - r.lo + 1 := rfl
  have order := hr.1
  -- no bit of the one range is a bit of the other
  have outside : i < r.width → s.lo ≤ r.lo + i → ¬r.lo + i ≤ s.hi := by
    intro inside above
    rcases apart with below | above' <;> omega
  by_cases inside : i < r.width
  · by_cases above : s.lo ≤ r.lo + i
    · simp [outside inside above]
    · simp [above]
  · simp [inside]

end BitRange

/-- The fields of an encoding are ranges of a word, no two of which share a bit. -/
def Encoding.Separate (e : Encoding) : Prop :=
  (∀ f ∈ e.fields, f.bits.Within 32) ∧ e.fields.Pairwise fun f g => f.bits.Disjoint g.bits

instance (e : Encoding) : Decidable e.Separate :=
  inferInstanceAs (Decidable (_ ∧ _))

end Assembler
