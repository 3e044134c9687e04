import Assembler.Text.Digits

/-! # Integer literals

A literal is decimal (`10`, `-10`, `#10`, `#-10`) or hexadecimal (`x3000`, `x-7F`, `0x1F`, `-0x1F`).
Its digits must denote a number below 2 to the 63rd; each sign negates it.
-/

namespace Assembler.Literal

/-- Split off a minus sign. -/
def splitSign : List Char → Bool × List Char
  | '-' :: rest => (true, rest)
  | text => (false, text)

/-- The text after the mark of a hexadecimal literal, if there is one. -/
def afterHexMark? : List Char → Option (List Char)
  | '0' :: 'x' :: rest => some rest
  | '0' :: 'X' :: rest => some rest
  | 'x' :: rest => some rest
  | 'X' :: rest => some rest
  | _ => none

/-- The number that digits denote, if it is below 2 to the 63rd. -/
def magnitude? (base : Nat) (digits : List Char) : Option Nat :=
  (Text.natOfDigits? base digits).filter (· < 1 <<< 63)

/-- A number with a sign. -/
def signed (negative : Bool) (n : Nat) : Int :=
  if negative then -(n : Int) else n

/-- The value of a literal given as characters. -/
def value? (text : List Char) : Option Int :=
  let text := match text with
    | '#' :: rest => rest
    | _ => text
  let outer := splitSign text
  match afterHexMark? outer.2 with
  | some text =>
      let inner := splitSign text
      (magnitude? 16 inner.2).map (signed (outer.1 != inner.1))
  | none => (magnitude? 10 outer.2).map (signed outer.1)

end Assembler.Literal
