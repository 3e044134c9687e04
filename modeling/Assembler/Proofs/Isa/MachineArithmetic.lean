import Assembler.Proofs.Isa.Range

/-! # Range checks and sign extension in 64-bit arithmetic

A machine checks the range of a field against shifted ones, cuts a word out of 64 bits, and extends
a sign by a shift to the top of 64 bits and an arithmetic shift back. For fields of a word none of
this overflows, so it computes what `fit` and `signExtend` say of the integers. The main result puts
together what these are: `fit` lets exactly the numbers of a field pass, and the two are inverse to
each other.
-/

namespace Assembler

/-- The bits of a value of 64 bits in a signed or unsigned field. -/
def fit64 (value : Int64) (bits : Nat) (signed : Bool) : Except RangeError UInt32 :=
  if signed then
    let half := (1 : Int64) <<< Int64.ofNat (bits - 1)
    if -half ≤ value ∧ value < half then .ok (value.toUInt64.toUInt32 &&& lowMask bits)
    else .error (.signed bits)
  else
    if 0 ≤ value ∧ value < (1 : Int64) <<< Int64.ofNat bits then
      .ok (value.toUInt64.toUInt32 &&& lowMask bits)
    else .error (.unsigned bits)

/-- The signed value of the lowest `bits` bits of a word, by moving them to the top and back. -/
def signExtend64 (word : UInt32) (bits : Nat) : Int64 :=
  let shift := Int64.ofNat (64 - bits)
  (word.toUInt64.toInt64 <<< shift) >>> shift

/-! ### The values of 64-bit operations -/

theorem toNat_distance {n : Nat} (small : n < 64) :
    ((Int64.ofNat n).toBitVec.smod 64).toNat = n := by
  have all : ∀ n : Fin 64, ((Int64.ofNat n).toBitVec.smod 64).toNat = n := by decide
  exact all ⟨n, small⟩

theorem toInt_shiftLeft (a : Int64) {n : Nat} (small : n < 64) :
    (a <<< Int64.ofNat n).toInt = Int.bmod (a.toInt * 2 ^ n) (2 ^ 64) := by
  rw [← Int64.toInt_toBitVec, Int64.toBitVec_shiftLeft, BitVec.shiftLeft_eq',
    BitVec.toInt_shiftLeft, toNat_distance small, Nat.shiftLeft_eq, ← Int64.toInt_toBitVec,
    BitVec.toInt_eq_toNat_bmod, Int.bmod_mul_bmod]
  push_cast
  rfl

theorem toInt_shiftRight (a : Int64) {n : Nat} (small : n < 64) :
    (a >>> Int64.ofNat n).toInt = a.toInt / 2 ^ n := by
  rw [← Int64.toInt_toBitVec, Int64.toBitVec_shiftRight, BitVec.toInt_sshiftRight',
    toNat_distance small, Int.shiftRight_eq_div_pow, Int64.toInt_toBitVec]
  push_cast
  rfl

theorem toInt_power {n : Nat} (small : n < 63) :
    ((1 : Int64) <<< Int64.ofNat n).toInt = 2 ^ n ∧
      (-((1 : Int64) <<< Int64.ofNat n)).toInt = -2 ^ n := by
  have positive : (0 : Int) < 2 ^ n := by positivity
  have bound : (2 ^ n : Int) < 2 ^ 63 := pow_lt_pow_right₀ (by decide) small
  have power : ((1 : Int64) <<< Int64.ofNat n).toInt = 2 ^ n := by
    rw [toInt_shiftLeft 1 (by omega), Int64.toInt_one, one_mul]
    exact bmod_of_inRange (by decide) ⟨by omega, bound⟩
  refine ⟨power, ?_⟩
  rw [Int64.toInt_neg, power]
  exact bmod_of_inRange (by decide) ⟨by omega, by omega⟩

theorem toUInt32_toUInt64 (value : Int64) : value.toUInt64.toUInt32 = wordOfInt value.toInt := by
  have signed : value.toInt = Int.bmod value.toUInt64.toNat (2 ^ 64) :=
    BitVec.toInt_eq_toNat_bmod value.toBitVec
  have whole : value.toInt % (2 ^ 64 : Nat) = value.toUInt64.toNat % (2 ^ 64 : Nat) := by
    rw [signed, Int.bmod_emod]
  have low := UInt64.toNat_toUInt32 value.toUInt64
  have residue := toNat_wordOfInt value.toInt
  apply UInt32.toNat_inj.1
  omega

theorem toInt_toInt64 (word : UInt32) : word.toUInt64.toInt64.toInt = word.toNat := by
  have signed : word.toUInt64.toInt64.toInt = Int.bmod word.toUInt64.toNat (2 ^ 64) :=
    BitVec.toInt_eq_toNat_bmod word.toUInt64.toInt64.toBitVec
  have bound := word.toNat_lt
  rw [signed, UInt32.toNat_toUInt64]
  exact bmod_of_inRange (by decide) ⟨by omega, by omega⟩

/-! ### The machine computes the checks on integers -/

/-- No bound of a field overflows, so the machine's check is that of the integers. -/
theorem fit64_eq (value : Int64) {bits : Nat} (narrow : bits ≤ 32) (signed : Bool) :
    fit64 value bits signed = fit value.toInt bits signed := by
  obtain ⟨half, lower⟩ := toInt_power (n := bits - 1) (by omega)
  obtain ⟨whole, -⟩ := toInt_power (n := bits) (by omega)
  cases signed with
  | true =>
      simp only [fit64, fit, if_true, Int64.le_iff_toInt_le, Int64.lt_iff_toInt_lt, lower, half,
        capacity_eq, Nat.cast_pow, Nat.cast_ofNat, toUInt32_toUInt64]
  | false =>
      simp only [fit64, fit, Bool.false_eq_true, if_false, Int64.le_iff_toInt_le,
        Int64.lt_iff_toInt_lt, Int64.toInt_zero, whole, capacity_eq, Nat.cast_pow, Nat.cast_ofNat,
        toUInt32_toUInt64]

/-- The balanced residue of a number moves up with the number and the modulus. -/
theorem bmod_mul_two_pow (x : Int) {bits : Nat} (positive : 0 < bits) (n : Nat) :
    Int.bmod (x * 2 ^ n) (2 ^ (bits + n)) = Int.bmod x (2 ^ bits) * 2 ^ n := by
  obtain ⟨low, high⟩ := inRange_bmod x positive
  obtain ⟨q, above⟩ : ((2 ^ bits : Nat) : Int) ∣ x - Int.bmod x (2 ^ bits) := Int.dvd_self_sub_bmod
  generalize Int.bmod x (2 ^ bits) = r at low high above ⊢
  have moved : x * 2 ^ n = r * 2 ^ n + ((2 ^ (bits + n) : Nat) : Int) * q := by
    rw [sub_eq_iff_eq_add.1 above]
    push_cast [pow_add]
    ring
  have half : (2 ^ (bits + n - 1) : Int) = 2 ^ (bits - 1) * 2 ^ n := by
    rw [← pow_add, Nat.sub_add_comm positive]
  -- what lies above the modulus drops out, and the rest is still in range
  rw [moved, Int.add_mul_bmod_self_left]
  apply bmod_of_inRange (by omega)
  simp only [InRange, if_true]
  rw [half, ← neg_mul]
  constructor
  · gcongr
  · gcongr

theorem toInt_signExtend64 (word : UInt32) {bits : Nat} (positive : 0 < bits)
    (narrow : bits ≤ 32) : (signExtend64 word bits).toInt = signExtend word bits := by
  have width : 64 = bits + (64 - bits) := by omega
  calc
    (signExtend64 word bits).toInt
      = Int.bmod (word.toNat * 2 ^ (64 - bits)) (2 ^ 64) / 2 ^ (64 - bits) := by
        rw [signExtend64, toInt_shiftRight _ (by omega), toInt_shiftLeft _ (by omega),
          toInt_toInt64]
    _ = Int.bmod (word.toNat * 2 ^ (64 - bits)) (2 ^ (bits + (64 - bits))) / 2 ^ (64 - bits) := by
        rw [← width]
    _ = Int.bmod word.toNat (2 ^ bits) := by
        rw [bmod_mul_two_pow _ positive, Int.mul_ediv_cancel _ (by positivity)]
    _ = signExtend word bits := by rw [signExtend, capacity_eq]

/-- A signed field takes exactly the numbers of its width in two's complement and gives them back by
    sign extension; an unsigned one takes exactly the numbers below its capacity, as they are; a data
    word takes both, as residues. What is read from the low bits of a word fills them again. In
    64-bit arithmetic, check and sign extension have the same results. -/
theorem fit_exact {bits : Nat} (positive : 0 < bits) (narrow : bits ≤ 32) :
    (∀ value : Int,
      (((∃ word, fit value bits true = .ok word) ↔
          -(2 ^ (bits - 1) : Int) ≤ value ∧ value < 2 ^ (bits - 1)) ∧
        ∀ word, fit value bits true = .ok word → signExtend word bits = value) ∧
      (((∃ word, fit value bits false = .ok word) ↔ 0 ≤ value ∧ value < 2 ^ bits) ∧
        ∀ word, fit value bits false = .ok word → (word.toNat : Int) = value) ∧
      ((∃ word, fitWord value bits = .ok word) ↔
          -(2 ^ (bits - 1) : Int) ≤ value ∧ value < 2 ^ bits) ∧
        ∀ word, fitWord value bits = .ok word → (word.toNat : Int) = value % 2 ^ bits) ∧
    (∀ word : UInt32, ∃ low, fit (signExtend word bits) bits true = .ok low ∧
      low.toNat = word.toNat % 2 ^ bits) ∧
    (∀ (value : Int64) (signed : Bool),
      fit64 value bits signed = fit value.toInt bits signed) ∧
    ∀ word : UInt32, (signExtend64 word bits).toInt = signExtend word bits := by
  refine ⟨fun value => ⟨?_, ?_, ?_⟩, fun word => ?_, fun value => fit64_eq value narrow,
    fun word => toInt_signExtend64 word positive narrow⟩
  · exact ⟨exists_fit_iff, fun word => signExtend_of_fit positive narrow⟩
  · exact ⟨exists_fit_iff, fun word => toNat_of_fit_unsigned narrow⟩
  · refine ⟨exists_fitWord_iff, fun word h => ?_⟩
    obtain ⟨signed, fits⟩ := fitWord_eq_ok h
    exact toNat_of_fit_eq_ok narrow fits
  · exact ⟨_, fit_signExtend word positive narrow, toNat_and_lowMask narrow word⟩

/-- In a whole word the least number fits and the one below it does not, and a word of ones, which
    stands for minus one, is filled again by it. -/
theorem fit_exact_word :
    (∃ word, fit (-2147483648) 32 true = .ok word) ∧
    (¬∃ word, fitWord (-2147483649) 32 = .ok word) ∧
    ∃ low, fit (signExtend 0xFFFFFFFF 32) 32 true = .ok low ∧ low.toNat = 0xFFFFFFFF := by
  obtain ⟨values, words, -, -⟩ := @fit_exact 32 (by decide) (by decide)
  refine ⟨?_, ?_, words 0xFFFFFFFF⟩
  · exact (values (-2147483648)).1.1.2 (by decide)
  · rw [(values (-2147483649)).2.2.1]
    decide

end Assembler
