/-! # Broken invariants

A fault is not an error of the input: it says that a stage met a value that the stage before it
never produces. Stages report faults apart from errors, so that "no input leads to a fault" is a
statement about the program.
-/

namespace Assembler

/-- An invariant that does not hold. -/
inductive Fault where
  /-- A reduction needs more entries than the parse stack has. -/
  | stackUnderflow
  /-- A table names a production that its grammar does not have. -/
  | missingProduction
  /-- A table has no successor for the nonterminal just reduced. -/
  | missingGoto
  /-- A table asks to take a token at the end of the line. -/
  | shiftAtEnd
  /-- A parse never ends. -/
  | endlessParse
  /-- A colon follows a first word that is not there. -/
  | colonWithoutWord
  /-- An operand is not of the kind that its encoding or directive was chosen for. -/
  | operandMismatch
  deriving Repr, DecidableEq

end Assembler
