import Assembler.Codegen.Error
import Assembler.Grammar.Table
import Assembler.Lexical.Token
import Assembler.Parsing.ShiftReduce
import Assembler.Program.Error

/-! # Diagnostics: an error of any stage -/

namespace Assembler

/-- An error of some stage between source text and object. -/
inductive Diagnostic where
  /-- A character that starts no token. -/
  | lexical (e : LexError)
  /-- A dialect whose rules are no grammar. -/
  | grammar (e : GrammarError)
  /-- A dialect whose grammar has no table. -/
  | table (e : TableError)
  /-- A line without parse. -/
  | parse (e : ParseError)
  /-- Lines that make no assembly. -/
  | semantic (e : SemanticError)
  /-- An assembly without machine code. -/
  | codegen (e : CodegenError)
  deriving Repr, DecidableEq

namespace Diagnostic

/-- The message shown for the error. -/
def message : Diagnostic → String
  | .lexical e => e.message
  | .grammar e => e.message
  | .table e => e.message
  | .parse e => e.message
  | .semantic e => e.message
  | .codegen e => e.message

/-- The source line that the error points to. -/
def line? : Diagnostic → Option Nat
  | .lexical e => some e.line
  | .grammar _ => none
  | .table _ => none
  | .parse e => e.line?
  | .semantic e => e.line?
  | .codegen e => e.line?

/-- Advice on the error, where there is any. -/
def help? : Diagnostic → Option String
  | .lexical e => some e.help
  | .grammar e => e.help?
  | .table e => some e.help
  | .parse e => e.help?
  | .semantic e => e.help?
  | .codegen e => e.help?

/-- The message of the error behind this one. -/
def cause? : Diagnostic → Option String
  | .codegen e => e.cause?.map (·.message)
  | _ => none

/-- The broken invariant, if the error is one. -/
def fault? : Diagnostic → Option Fault
  | .parse (.fault f) => some f
  | .semantic (.fault f) => some f
  | .codegen (.fault f) => some f
  | _ => none

end Diagnostic

end Assembler
