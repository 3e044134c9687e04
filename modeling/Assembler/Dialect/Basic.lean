import Assembler.Codegen.Encode
import Assembler.Diagnostic
import Assembler.Dialect.Complx
import Assembler.Dialect.Lc2200
import Assembler.Grammar.Bnf
import Assembler.Isa.Lc2200
import Assembler.Isa.Lc3

/-! # Dialects -/

namespace Assembler

/-- The assembly languages that can be read. -/
inductive Dialect where
  /-- LC-3 assembly as the Complx simulator reads it. -/
  | complx
  /-- LC-2200 assembly. -/
  | lc2200
  deriving Repr, DecidableEq

/-- The table of a grammar text. -/
def tableOfText (text : String) : Except Diagnostic Table :=
  match Grammar.ofBnf text with
  | .error e => .error (.grammar e)
  | .ok g =>
      match Table.ofGrammar g with
      | .error e => .error (.table e)
      | .ok t => .ok t

/-- The table of the Complx line grammar. -/
def Complx.table : Except Diagnostic Table := tableOfText Complx.grammarText

/-- The table of the LC-2200 line grammar. -/
def Lc2200.table : Except Diagnostic Table := tableOfText Lc2200.grammarText

namespace Dialect

/-- The name of a dialect. -/
def name : Dialect → String
  | .complx => "complx"
  | .lc2200 => "lc2200"

/-- What its tokens look like. -/
def config : Dialect → LexConfig
  | .complx => Complx.config
  | .lc2200 => Lc2200.config

/-- The text of its line grammar. -/
def grammarText : Dialect → String
  | .complx => Complx.grammarText
  | .lc2200 => Lc2200.grammarText

/-- The table of its line grammar. -/
def table : Dialect → Except Diagnostic Table
  | .complx => Complx.table
  | .lc2200 => Lc2200.table

/-- How it divides statements into sections. -/
def sections : Dialect → SectionPolicy
  | .complx => Complx.sections
  | .lc2200 => Lc2200.sections

/-- The machine it assembles for. -/
def isa : Dialect → Isa
  | .complx => Lc3.isa
  | .lc2200 => Lc2200.isa

/-- Its data directives. -/
def directives : Dialect → List DirectiveSpec
  | .complx => Complx.directives
  | .lc2200 => Lc2200.directives

/-- What code is generated for. -/
def target (d : Dialect) : Target := ⟨d.isa, d.directives⟩

/-- The labels and the statement of a line's tree, for a machine. -/
def contentsFor (d : Dialect) (isa : Isa) (tree : Tree) : Except SemanticError LineContents :=
  match d with
  | .complx => Complx.contents isa tree
  | .lc2200 => Lc2200.contents isa tree

/-- The labels and the statement of a line's tree. -/
def contents (d : Dialect) (tree : Tree) : Except SemanticError LineContents :=
  d.contentsFor d.isa tree

end Dialect

end Assembler
