/-! # Values in a given number of bits

`fit` gives the two's complement bits of a value that the field can hold, and `signExtend` reads
bits back as a signed value. Words have 32 bits, so wider fields lose their high bits.
-/

namespace Assembler

/-- The number of values that a field of this many bits can hold. -/
def capacity (bits : Nat) : Nat := 1 <<< bits

/-- A value that a field cannot hold. -/
inductive RangeError where
  /-- Not in the range of signed integers of this many bits. -/
  | signed (bits : Nat)
  /-- Not in the range of unsigned integers of this many bits. -/
  | unsigned (bits : Nat)
  deriving Repr, DecidableEq

namespace RangeError

/-- The message shown for the error. -/
def message : RangeError → String
  | .signed bits => s!"value is too big for signed {bits}-bit integer"
  | .unsigned bits => s!"value is too big for unsigned {bits}-bit integer"

/-- Advice on the error: the range. -/
def help : RangeError → String
  | .signed bits =>
      let half : Int := capacity (bits - 1)
      s!"the range for a signed {bits}-bit integer is [{-half}, {half - 1}]"
  | .unsigned bits =>
      let all : Int := capacity bits
      s!"the range for an unsigned {bits}-bit integer is [0, {all - 1}]"

end RangeError

/-- A word with its lowest `width` bits set. -/
def lowMask (width : Nat) : UInt32 :=
  if width < 32 then ((1 : UInt32) <<< UInt32.ofNat width) - 1 else 0xFFFFFFFF

/-- The lowest 32 bits of an integer in two's complement. -/
def wordOfInt (value : Int) : UInt32 :=
  UInt32.ofNat (value % UInt32.size).toNat

/-- The bits of a value in a signed or unsigned field. -/
def fit (value : Int) (bits : Nat) (signed : Bool) : Except RangeError UInt32 :=
  if signed then
    let half : Int := capacity (bits - 1)
    if -half ≤ value ∧ value < half then .ok (wordOfInt value &&& lowMask bits)
    else .error (.signed bits)
  else
    if 0 ≤ value ∧ value < capacity bits then .ok (wordOfInt value &&& lowMask bits)
    else .error (.unsigned bits)

/-- The bits of a value in a data word, which may be meant as signed or as unsigned. -/
def fitWord (value : Int) (bits : Nat) : Except RangeError UInt32 :=
  match fit value bits false with
  | .ok word => .ok word
  | .error _ => fit value bits true

/-- The signed value of the lowest `bits` bits of a word. -/
def signExtend (word : UInt32) (bits : Nat) : Int :=
  Int.bmod word.toNat (capacity bits)

end Assembler
