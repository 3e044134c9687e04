import Assembler.Dialect.Leaf
import Assembler.Lexical.Config
import Assembler.Program.Builder

/-! # The LC-2200 dialect

Labels end with a colon, so the line grammar alone tells them from mnemonics. The whole file is one
section at address 0. A memory operand `offset(base)` stands for the base register followed by the
offset, which is their order in the encodings.
-/

namespace Assembler.Lc2200

/-- The line grammar. -/
def grammarText : String := "
    line -> label | label stmt | stmt ;
    label -> word ':' ;
    stmt -> instr | pseudo ;
    instr -> word | word operands ;
    operands -> operand | operands ',' operand ;
    operand -> reg | int | word | int '(' reg ')' | word '(' reg ')' ;
    pseudo -> pseudoop | pseudoop operand ;
"

/-- One section at address 0. -/
def sections : SectionPolicy := .implicit 0

/-- The data directives. -/
def directives : List DirectiveSpec :=
  [⟨"word", .integer, .word⟩, ⟨"word", .label, .word⟩, ⟨"fill", .integer, .word⟩,
   ⟨"fill", .label, .word⟩, ⟨"space", .integer, .block⟩]

/-- The tokens: comments, registers marked by `$` with numbers or names, and `0x` in front of
    hexadecimal digits. -/
def config : LexConfig where
  commentChars := ['!', ';', '#']
  symbols := [',', '(', ')', ':']
  sigils := ['$']
  namedRegisters := true
  zeroMark := true
  hash := false

/-- The operands of one operand node. -/
def operandsOf (isa : Isa) (node : Tree) : Except SemanticError (List Operand) :=
  match node.children with
  | [leaf] => do return [← leaf.operand isa]
  | [offset, _, base, _] => do return [← base.operand isa, ← offset.operand isa]
  | _ => .error (.malformed node.line)

mutual
/-- The operands of a list of operands, from left to right. -/
def flatten (isa : Isa) : Tree → Except SemanticError (List Operand)
  | ⟨symbol, text, line, col, children⟩ =>
      if symbol = "operands" then flattenAll isa children
      else if symbol = "operand" then operandsOf isa ⟨symbol, text, line, col, children⟩
      else .error (.malformed line)

/-- The operands of the parts of a list, of which commas are none. -/
def flattenAll (isa : Isa) : List Tree → Except SemanticError (List Operand)
  | [] => .ok []
  | t :: ts =>
      if t.symbol = "," then flattenAll isa ts
      else do
        let first ← flatten isa t
        let rest ← flattenAll isa ts
        return first ++ rest
end

/-- The statement of a statement node. A directive takes no memory operand. -/
def statement (isa : Isa) (node : Tree) : Except SemanticError Statement :=
  match node.children with
  | [] => .error (.malformed node.line)
  | inner :: _ =>
      if inner.symbol = "pseudo" then
        if inner.leaves.length > 2 then .error (.malformed node.line)
        else do return .directive (← inner.directive isa)
      else if inner.symbol = "instr" then
        match inner.children with
        | [op] => .ok (.instruction ⟨op.text.toLower, [], node.line⟩)
        | [op, list] => do
            return .instruction ⟨op.text.toLower, ← flatten isa list, node.line⟩
        | _ => .error (.malformed node.line)
      else .error (.malformed node.line)

/-- Add a part of a line to what the parts before it hold. -/
def addPart (isa : Isa) (line : Nat) (acc : LineContents) (part : Tree) :
    Except SemanticError LineContents :=
  if part.symbol = "label" then
    .ok { acc with labels := acc.labels ++ (part.leaves.head?.map (·.text)).toList }
  else if part.symbol = "stmt" then do
    return { acc with statement? := some (← statement isa part) }
  else .error (.malformed line)

/-- The labels and the statement of a line's tree. -/
def contents (isa : Isa) (tree : Tree) : Except SemanticError LineContents :=
  tree.children.foldlM (addPart isa tree.line) ⟨[], none⟩

end Assembler.Lc2200
