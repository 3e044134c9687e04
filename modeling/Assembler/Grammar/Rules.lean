import Assembler.Grammar.Basic

/-! # Grammars from named rules

Rules name their symbols. Reading them gives each name its position and refuses lists of names that
do not make a grammar; of several faults the first in the order below is reported.
-/

namespace Assembler

/-- A rule between named symbols. -/
structure Rule where
  /-- The name on the left. -/
  lhs : String
  /-- The names on the right. -/
  rhs : List String
  deriving Repr, DecidableEq

/-- Why rules or their text make no grammar. -/
inductive GrammarError where
  /-- A name that is neither a terminal nor a nonterminal. -/
  | undeclared (name : String)
  /-- A name that is both. -/
  | ambiguous (name : String)
  /-- A terminal in the place of a nonterminal: on a left-hand side or as the goal. -/
  | badLhs (name : String)
  /-- A nonterminal without productions. -/
  | unproductive (name : String)
  /-- The goal occurs on a right-hand side. -/
  | recursiveGoal (name : String)
  /-- There are no productions. -/
  | empty
  /-- The text is not well formed at a byte position. -/
  | malformed (pos : Nat) (what : String)
  deriving Repr, DecidableEq

namespace GrammarError

/-- The message shown for the error. -/
def message : GrammarError → String
  | .undeclared name => s!"undeclared symbol '{name}'"
  | .ambiguous name => s!"symbol '{name}' is both a terminal and a nonterminal"
  | .badLhs name => s!"left-hand side '{name}' is not a nonterminal"
  | .unproductive name => s!"nonterminal '{name}' has no productions"
  | .recursiveGoal name => s!"goal symbol '{name}' appears on a right-hand side"
  | .empty => "grammar has no productions"
  | .malformed pos what => s!"malformed grammar at byte {pos}: {what}"

/-- Advice on the error, where there is any. -/
def help? : GrammarError → Option String
  | .recursiveGoal _ => some "add a new goal rule that produces the old goal symbol"
  | .unproductive _ => some "add a rule for this symbol or use %empty"
  | _ => none

end GrammarError

/-- The last position of a name in a list. -/
def lastIndexOf? (name : String) : List String → Option Nat
  | [] => none
  | x :: xs =>
      match lastIndexOf? name xs with
      | some i => some (i + 1)
      | none => if x = name then some 0 else none

namespace Grammar

/-- The symbol of a name. -/
def symbolOf (nonterminals terminals : List String) (name : String) : Except GrammarError Symbol :=
  match lastIndexOf? name nonterminals, lastIndexOf? name terminals with
  | some n, _ => .ok (.nonterminal n)
  | none, some t => .ok (.terminal t)
  | none, none => .error (.undeclared name)

/-- The position of a name that must be a nonterminal. -/
def nonterminalOf (nonterminals terminals : List String) (name : String) :
    Except GrammarError Nat := do
  match ← symbolOf nonterminals terminals name with
  | .nonterminal n => return n
  | .terminal _ => throw (.badLhs name)

/-- The production of a rule. -/
def productionOf (nonterminals terminals : List String) (rule : Rule) :
    Except GrammarError Production := do
  let lhs ← nonterminalOf nonterminals terminals rule.lhs
  let rhs ← rule.rhs.mapM (symbolOf nonterminals terminals)
  return ⟨lhs, rhs⟩

/-- The grammar of a list of rules over declared names. -/
def ofRules (goal : String) (rules : List Rule) (nonterminals terminals : List String) :
    Except GrammarError Grammar := do
  if let some name := nonterminals.find? terminals.contains then
    throw (.ambiguous name)
  if rules.isEmpty then
    throw .empty
  let productions ← rules.mapM (productionOf nonterminals terminals)
  let goal ← nonterminalOf nonterminals terminals goal
  let g : Grammar := ⟨nonterminals, terminals, productions, goal⟩
  if let some n := (List.range nonterminals.length).find? fun n => (g.productionsOf n).isEmpty then
    throw (.unproductive (g.name (.nonterminal n)))
  if productions.any (·.rhs.contains (.nonterminal goal)) then
    throw (.recursiveGoal (g.name (.nonterminal goal)))
  return g

end Grammar

end Assembler
