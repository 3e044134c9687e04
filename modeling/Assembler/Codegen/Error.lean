import Assembler.Fault
import Assembler.Isa.Range
import Assembler.Text.Digits

/-! # Errors of code generation -/

namespace Assembler

/-- Why an assembly has no machine code. -/
inductive CodegenError where
  /-- No encoding of the mnemonic takes operands of these kinds. -/
  | unknownInstruction (op operands : String) (line : Nat)
  /-- No such directive takes an operand of this kind. -/
  | unknownDirective (op operand : String) (line : Nat)
  /-- A label that is defined nowhere. -/
  | unknownLabel (label : String) (line : Nat)
  /-- A value, or the distance to a label, that its field cannot hold. -/
  | outOfRange (target : String) (line : Nat) (cause : RangeError)
  /-- Two sections share an address; `line` is the line of the second. -/
  | overlappingSections (first second : UInt32) (line : Nat)
  /-- A section does not fit in memory. -/
  | pastEndOfMemory (start : UInt32) (line : Nat)
  /-- There are more words than the limit. -/
  | outputTooLarge (limit line : Nat)
  /-- A statement that was matched with the wrong description. -/
  | fault (f : Fault)
  deriving Repr, DecidableEq

namespace CodegenError

/-- The message shown for the error. -/
def message : CodegenError → String
  | .unknownInstruction op operands line =>
      s!"no encoding of '{op}' takes operands ({operands}) on line {line}"
  | .unknownDirective op operand line =>
      s!"unknown assembler directive '.{op}' with {operand} operand on line {line}"
  | .unknownLabel label line => s!"unknown label '{label}' on line {line}"
  | .outOfRange target line _ => s!"'{target}' is out of range on line {line}"
  | .overlappingSections first second _ =>
      let low := Text.addressText first.toNat
      let high := Text.addressText second.toNat
      s!"sections starting at {low} and {high} overlap"
  | .pastEndOfMemory start _ =>
      let address := Text.addressText start.toNat
      s!"section starting at {address} runs past the end of memory"
  | .outputTooLarge limit line => s!"assembled output exceeds {limit} words on line {line}"
  | .fault _ => "internal fault"

/-- The line that the error points to. A section that no line opened has none. -/
def line? : CodegenError → Option Nat
  | .unknownInstruction _ _ line => some line
  | .unknownDirective _ _ line => some line
  | .unknownLabel _ line => some line
  | .outOfRange _ line _ => some line
  | .overlappingSections _ _ line => if line = 0 then none else some line
  | .pastEndOfMemory _ line => if line = 0 then none else some line
  | .outputTooLarge _ line => some line
  | .fault _ => none

/-- Advice on the error, where there is any. -/
def help? : CodegenError → Option String
  | .unknownInstruction _ _ _ => some "check the number and kinds of this instruction's operands"
  | .unknownDirective _ _ _ =>
      some "check that this directive exists in this dialect and takes this kind of operand"
  | .unknownLabel _ _ => some "try adding this label before an instruction or directive"
  | .outOfRange _ _ cause => some cause.help
  | .overlappingSections _ _ _ =>
      some "try moving the starting address of one of these sections"
  | .pastEndOfMemory _ _ => some "try moving this section to a lower address"
  | .outputTooLarge _ _ => some "try reserving less memory with block directives"
  | .fault _ => none

/-- The range error behind the error, if it is one of range. -/
def cause? : CodegenError → Option RangeError
  | .outOfRange _ _ cause => some cause
  | _ => none

end CodegenError

end Assembler
