import Assembler.Text.Escape

/-! # Operands -/

namespace Assembler

/-- An operand of an instruction or a directive. -/
inductive Operand where
  /-- A register by the lower-case character that marks its file and its number. -/
  | register (sigil : Char) (num : Nat)
  /-- An integer; a character literal is the integer of its code point. -/
  | integer (value : Int)
  /-- A reference to a label. -/
  | label (name : String)
  /-- A string with its escapes decoded. -/
  | string (text : String)
  deriving Repr, DecidableEq

/-- The kind of an operand, by which encodings and directives are chosen. -/
inductive OperandKind where
  /-- Registers. -/
  | register
  /-- Integers. -/
  | integer
  /-- Labels. -/
  | label
  /-- Strings. -/
  | string
  deriving Repr, DecidableEq

/-- The word that messages use for a kind. -/
def OperandKind.name : OperandKind → String
  | .register => "register"
  | .integer => "integer"
  | .label => "label"
  | .string => "string"

namespace Operand

/-- The kind of an operand. -/
def kind : Operand → OperandKind
  | .register _ _ => .register
  | .integer _ => .integer
  | .label _ => .label
  | .string _ => .string

/-- The source text of an operand. -/
def render : Operand → String
  | .register sigil num => sigil.toString ++ toString num
  | .integer value => "#" ++ toString value
  | .label name => name
  | .string text => String.ofList (Text.stringLiteral text.toList)

/-- The kinds of a list of operands as messages show them. -/
def kindsText (operands : List Operand) : String :=
  ", ".intercalate (operands.map (·.kind.name))

end Operand

end Assembler
