import Assembler.Collections.SortedMap
import Assembler.Program.Operand

/-! # Assemblies: sections of statements and the sites of labels

A label's site is a section and the number of statements before it there, so a label after the last
statement denotes the address just past the section.
-/

namespace Assembler

/-- An instruction or a macro instruction, with its mnemonic in lower case. -/
structure Instruction where
  /-- The mnemonic. -/
  op : String
  /-- The operands in the order of the encoding. -/
  operands : List Operand
  /-- The source line. -/
  line : Nat
  deriving Repr, DecidableEq

/-- A directive that emits data, with its name in lower case and without its dot. -/
structure Directive where
  /-- The name. -/
  op : String
  /-- The operand, if there is one. -/
  operand? : Option Operand
  /-- The source line. -/
  line : Nat
  deriving Repr, DecidableEq

/-- A statement of a section. -/
inductive Statement where
  /-- An instruction. -/
  | instruction (i : Instruction)
  /-- A directive. -/
  | directive (d : Directive)
  deriving Repr, DecidableEq

/-- The source text of an instruction. -/
def Instruction.render (i : Instruction) : String :=
  if i.operands.isEmpty then i.op
  else i.op ++ " " ++ ", ".intercalate (i.operands.map Operand.render)

/-- The source text of a directive. -/
def Directive.render (d : Directive) : String :=
  match d.operand? with
  | none => "." ++ d.op
  | some operand => "." ++ d.op ++ " " ++ operand.render

namespace Statement

/-- The source line of a statement. -/
def line : Statement → Nat
  | .instruction i => i.line
  | .directive d => d.line

/-- The source text of a statement. -/
def render : Statement → String
  | .instruction i => i.render
  | .directive d => d.render

/-- The operands of a statement. -/
def operands : Statement → List Operand
  | .instruction i => i.operands
  | .directive d => d.operand?.toList

end Statement

/-- Statements placed at a fixed address. -/
structure Section where
  /-- The address of the first word. -/
  start : UInt32
  /-- The statements in source order. -/
  statements : List Statement
  /-- The line that opened the section, or 0 for a section that no line opened. -/
  line : Nat
  deriving Repr, DecidableEq

/-- The place of a label. -/
structure Site where
  /-- The position of its section. -/
  sectionIndex : Nat
  /-- The number of statements before it in that section. -/
  index : Nat
  deriving Repr, DecidableEq

/-- A source file as sections and label sites. -/
structure Assembly where
  /-- The sections in source order. -/
  sections : List Section
  /-- The site of every label. -/
  labels : SortedMap String Site
  deriving DecidableEq

/-- The assembly without sections and labels. -/
def Assembly.empty : Assembly := ⟨[], .empty⟩

/-- The labels at a site. -/
def Assembly.labelsAt (asm : Assembly) (site : Site) : List String :=
  (asm.labels.toList.filter (·.2 == site)).map (·.1)

end Assembler
