import Assembler.Fault
import Assembler.Grammar.Table
import Assembler.Parsing.Tree

/-! # Parsing a line by its table

The parser is a machine whose configuration is a stack of states with the tree that led to each,
over the start state, and the tokens not yet taken. A step looks its action up by the state on top
and the next token. Steps are taken until one ends the parse; nothing bounds their number from
outside, so that a run without end would be visible as one.
-/

namespace Assembler

/-- Why a line has no parse. -/
inductive ParseError where
  /-- A token that nothing allows at this point. -/
  | unexpectedToken (text : String) (line col : Nat)
  /-- The line ends too early. -/
  | unexpectedEnd (line : Nat)
  /-- The table is broken. -/
  | fault (f : Fault)
  deriving Repr, DecidableEq

namespace ParseError

/-- The message shown for the error. -/
def message : ParseError → String
  | .unexpectedToken text line col => s!"unexpected token '{text}' at line {line} column {col}"
  | .unexpectedEnd line => s!"unexpected end-of-line at line {line}"
  | .fault _ => "internal fault"

/-- The line that the error points to. -/
def line? : ParseError → Option Nat
  | .unexpectedToken _ line _ => some line
  | .unexpectedEnd line => some line
  | .fault _ => none

/-- Advice on the error, where there is any. -/
def help? : ParseError → Option String
  | .unexpectedEnd _ => some "this statement is missing an operand"
  | _ => none

end ParseError

/-- An entry of the parse stack: a tree and the state reached after it. -/
structure Frame where
  /-- The state. -/
  state : Nat
  /-- The tree that led to it. -/
  tree : Tree

/-- A configuration of the parser. -/
structure Configuration where
  /-- The stack above the start state, topmost entry first. -/
  stack : List Frame
  /-- The tokens not yet taken. -/
  input : List Token

namespace Configuration

/-- The configuration before the first step. -/
def start (tokens : List Token) : Configuration := ⟨[], tokens⟩

/-- The state on top of a stack. -/
def topOf : List Frame → Nat
  | [] => 0
  | frame :: _ => frame.state

/-- The state on top. -/
def top (c : Configuration) : Nat := topOf c.stack

end Configuration

/-- What a step of the parser leads to. -/
inductive StepResult where
  /-- A further configuration. -/
  | next (c : Configuration)
  /-- The tree of the line. -/
  | accepted (tree : Tree)
  /-- No tree. -/
  | failed (e : ParseError)

namespace Table

/-- The column of the next token, or of the end of the input. -/
def inputColumn? (t : Table) : List Token → Option Nat
  | [] => some t.endColumn
  | token :: _ => t.column? token.kind.name

/-- The error at the next token, or at the end of the line. -/
def errorAt (line : Nat) : List Token → ParseError
  | [] => .unexpectedEnd line
  | token :: _ => .unexpectedToken token.text line token.col

/-- Take the entries of a production's right-hand side off the stack and build its node. The result
    has the rest of the stack, the nonterminal and the node. -/
def reduce (t : Table) (line p : Nat) (stack : List Frame) :
    Except Fault (List Frame × Nat × Tree) :=
  match t.grammar.productions[p]? with
  | none => .error .missingProduction
  | some production =>
      let count := production.rhs.length
      if stack.length < count then .error .stackUnderflow
      else
        let children := (stack.take count).reverse.map (·.tree)
        let name := t.grammar.name (.nonterminal production.lhs)
        .ok (stack.drop count, production.lhs, Tree.node name line children)

/-- One step of the parser. -/
def step (t : Table) (line : Nat) (c : Configuration) : StepResult :=
  match (t.inputColumn? c.input).bind (t.action? c.top) with
  | none => .failed (errorAt line c.input)
  | some (.shift state) =>
      match c.input with
      | [] => .failed (.fault .shiftAtEnd)
      | token :: rest => .next ⟨⟨state, .leaf line token⟩ :: c.stack, rest⟩
  | some (.reduce p) =>
      match t.reduce line p c.stack with
      | .error f => .failed (.fault f)
      | .ok (stack, n, tree) =>
          match t.goto? (Configuration.topOf stack) n with
          | none => .failed (.fault .missingGoto)
          | some state => .next ⟨⟨state, tree⟩ :: stack, c.input⟩
  | some (.accept p) =>
      match t.reduce line p c.stack with
      | .error f => .failed (.fault f)
      | .ok (_, _, tree) => .accepted tree

/-- Take steps until one ends the parse. The result is `none` if none does. -/
def loop (t : Table) (line : Nat) (c : Configuration) : Option (Except ParseError Tree) :=
  match t.step line c with
  | .next c => t |>.loop line c
  | .accepted tree => some (.ok tree)
  | .failed e => some (.error e)
partial_fixpoint

/-- Parse a line into a tree whose root is the goal. -/
def parse (t : Table) (line : Line) : Except ParseError Tree :=
  match t.loop line.number (.start line.tokens) with
  | some result => result
  | none => .error (.fault .endlessParse)

end Table

end Assembler
