/-! # Numerals

Reading digit strings in base ten or sixteen, and writing upper-case hexadecimal. A numeral is a
non-empty run of digits; its value is the usual positional one.
-/

namespace Assembler.Text

/-- The value of a digit, in bases up to sixteen and in either case. -/
def digitValue? (base : Nat) (c : Char) : Option Nat :=
  let value? : Option Nat :=
    if '0' ≤ c ∧ c ≤ '9' then some (c.toNat - '0'.toNat)
    else if 'a' ≤ c ∧ c ≤ 'f' then some (c.toNat - 'a'.toNat + 10)
    else if 'A' ≤ c ∧ c ≤ 'F' then some (c.toNat - 'A'.toNat + 10)
    else none
  value?.filter (· < base)

/-- The value of a run of digits that follow the value read so far. -/
def digitsFrom? (base : Nat) : Nat → List Char → Option Nat
  | n, [] => some n
  | n, c :: cs =>
      match digitValue? base c with
      | some d => digitsFrom? base (base * n + d) cs
      | none => none

/-- The value of a numeral; an empty text is no numeral. -/
def natOfDigits? (base : Nat) : List Char → Option Nat
  | [] => none
  | cs => digitsFrom? base 0 cs

/-- The value of a numeral below `limit`, which may have a plus sign in front. -/
def unsigned? (base limit : Nat) (text : List Char) : Option Nat :=
  let digits := match text with
    | '+' :: rest => rest
    | _ => text
  (natOfDigits? base digits).filter (· < limit)

/-- Upper-case hexadecimal digits, filled up with zeros to a least width. -/
def upperHex (width n : Nat) : String :=
  let digits := (Nat.toDigits 16 n).map Char.toUpper
  String.ofList (List.replicate (width - digits.length) '0' ++ digits)

/-- An address as messages show it: at least four digits after the `0x`. -/
def addressText (n : Nat) : String := "0x" ++ upperHex 4 n

end Assembler.Text
