import Assembler.Dialect.Literal
import Assembler.Isa.Basic
import Assembler.Parsing.Tree
import Assembler.Program.Assembly
import Assembler.Program.Error
import Assembler.Text.Escape

/-! # Operands and directives from parse trees -/

namespace Assembler.Tree

/-- The operand of a register leaf: its first character marks the register file. -/
def registerOperand (isa : Isa) (leaf : Tree) : Except SemanticError Operand :=
  let sigil := ((leaf.text.toList.head?).map Char.toLower).getD '\x00'
  match isa.registerNumber? sigil (String.ofList leaf.text.toList.tail) with
  | some num => .ok (.register sigil num)
  | none => .error (.unknownRegister leaf.text leaf.line)

/-- The operand of a character leaf: the code point of its one character. -/
def charOperand (leaf : Tree) : Except SemanticError Operand :=
  match Text.unescape (Text.dropQuotes leaf.text.toList) with
  | [c] => .ok (.integer c.toNat)
  | _ => .error (.malformed leaf.line)

/-- The operand that a token leaf denotes. -/
def operand (isa : Isa) (leaf : Tree) : Except SemanticError Operand :=
  match leaf.symbol with
  | "reg" => leaf.registerOperand isa
  | "int" =>
      match Literal.value? leaf.text.toList with
      | some value => .ok (.integer value)
      | none => .error (.badInteger leaf.text leaf.line)
  | "char" => leaf.charOperand
  | "string" =>
      .ok (.string (String.ofList (Text.unescape (Text.dropQuotes leaf.text.toList))))
  | "word" => .ok (.label leaf.text)
  | _ => .error (.malformed leaf.line)

/-- The name of a directive: without dots in front, in lower case. -/
def directiveName (text : String) : String :=
  String.ofList ((text.toList.dropWhile (· == '.')).map Char.toLower)

/-- The directive of a node whose tokens are its name and at most one operand. -/
def directive (isa : Isa) (node : Tree) : Except SemanticError Directive :=
  match node.leaves with
  | [name] => .ok ⟨directiveName name.text, none, node.line⟩
  | [name, leaf] => do
      return ⟨directiveName name.text, some (← leaf.operand isa), node.line⟩
  | _ => .error (.malformed node.line)

end Assembler.Tree
