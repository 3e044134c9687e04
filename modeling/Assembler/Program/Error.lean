import Assembler.Fault

/-! # Errors of statements and sections -/

namespace Assembler

/-- Why the lines of a source make no assembly. -/
inductive SemanticError where
  /-- A label outside of any section. -/
  | strayLabel (line : Nat)
  /-- An instruction outside of any section. -/
  | strayInstruction (line : Nat)
  /-- A directive outside of any section, or a section closed that is not open. -/
  | strayDirective (line : Nat)
  /-- A section that is never closed. -/
  | missingEnd (opening closing : String) (line : Nat)
  /-- A section opened inside another, which was opened on line `outer`. -/
  | nestedSection (opening : String) (line outer : Nat)
  /-- A label defined before. -/
  | duplicateLabel (label : String) (line : Nat)
  /-- A label on a directive that opens or closes a section. -/
  | labeledDirective (directive : String) (line : Nat)
  /-- A wrong operand of a directive that opens or closes a section. -/
  | badDirectiveOperand (directive : String) (line : Nat)
  /-- A register that the machine does not have. -/
  | unknownRegister (name : String) (line : Nat)
  /-- An integer literal without a value. -/
  | badInteger (text : String) (line : Nat)
  /-- A line that is no statement. -/
  | malformed (line : Nat)
  /-- A tree that no parse gives. -/
  | fault (f : Fault)
  deriving Repr, DecidableEq

namespace SemanticError

/-- The message shown for the error. -/
def message : SemanticError → String
  | .strayLabel line => s!"stray label on line {line}"
  | .strayInstruction line => s!"stray instruction on line {line}"
  | .strayDirective line => s!"stray assembler directive on line {line}"
  | .missingEnd opening closing line => s!"missing an .{closing} for the .{opening} on line {line}"
  | .nestedSection opening line outer =>
      s!"the .{opening} on line {line} is inside the section opened on line {outer}"
  | .duplicateLabel label line => s!"duplicate label '{label}' on line {line}"
  | .labeledDirective directive line =>
      s!"the .{directive} directive on line {line} cannot have a label"
  | .badDirectiveOperand directive line => s!"wrong operand for .{directive} on line {line}"
  | .unknownRegister name line => s!"unknown register '{name}' on line {line}"
  | .badInteger text line => s!"invalid integer '{text}' on line {line}"
  | .malformed line => s!"malformed statement on line {line}"
  | .fault _ => "internal fault"

/-- The line that the error points to. -/
def line? : SemanticError → Option Nat
  | .strayLabel line => some line
  | .strayInstruction line => some line
  | .strayDirective line => some line
  | .missingEnd _ _ line => some line
  | .nestedSection _ line _ => some line
  | .duplicateLabel _ line => some line
  | .labeledDirective _ line => some line
  | .badDirectiveOperand _ line => some line
  | .unknownRegister _ line => some line
  | .badInteger _ line => some line
  | .malformed line => some line
  | .fault _ => none

/-- Advice on the error, where there is any. -/
def help? : SemanticError → Option String
  | .strayLabel _ => some "statements must be inside a section"
  | .strayInstruction _ => some "statements must be inside a section"
  | .strayDirective _ => some "statements must be inside a section"
  | .missingEnd _ closing _ => some s!"add an .{closing} at the end of the section"
  | .nestedSection _ _ _ => some "close the previous section first"
  | .duplicateLabel _ _ => some "labels must be unique across the file"
  | .badDirectiveOperand directive _ =>
      some s!".{directive} takes exactly the operand it is defined with"
  | _ => none

end SemanticError

end Assembler
