import Assembler.Grammar.Collection
import Assembler.Grammar.Rules

/-! # LR(1) tables

A table lays the canonical collection out as one row of actions for each state, with a column for
each terminal and a last one for the end of the input, and one row of successor states, with a
column for each nonterminal. A grammar for which some cell would need two actions has no table.
-/

namespace Assembler

/-- An entry of the action table. -/
inductive Action where
  /-- Take the token and go to a state. -/
  | shift (state : Nat)
  /-- Replace the right-hand side of a production by its left-hand side. -/
  | reduce (production : Nat)
  /-- Reduce by a production of the goal and stop. -/
  | accept (production : Nat)
  deriving Repr, DecidableEq

/-- A cell of the action table that would need two actions. -/
inductive TableError where
  /-- A token could be taken or a production reduced. -/
  | shiftReduce (state : Nat) (lookahead production : String)
  /-- Two productions could be reduced. -/
  | reduceReduce (state : Nat) (lookahead first second : String)
  deriving Repr, DecidableEq

namespace TableError

/-- The message shown for the error. -/
def message : TableError → String
  | .shiftReduce state lookahead production =>
      s!"shift-reduce conflict in state {state} on '{lookahead}' (reducing {production})"
  | .reduceReduce state lookahead first second =>
      s!"reduce-reduce conflict in state {state} on '{lookahead}' ({first} vs. {second})"

/-- Advice on the error. -/
def help (_ : TableError) : String :=
  "the grammar is not LR(1) and must be rewritten"

end TableError

/-- An LR(1) table. -/
structure Table where
  /-- The grammar that the table parses. -/
  grammar : Grammar
  /-- The actions: a row for each state, a column for each terminal and the end of the input. -/
  actions : List (List (Option Action))
  /-- The successors: a row for each state, a column for each nonterminal. -/
  gotos : List (List (Option Nat))
  deriving DecidableEq

namespace Table

/-- The name of the column for the end of the input. -/
def endName : String := "$"

/-- A row of actions under construction. -/
abbrev Row := List (Option Action)

/-- The name of a column. -/
def columnName (g : Grammar) (col : Nat) : String :=
  g.terminals.getD col endName

/-- The column of a lookahead. -/
def columnOf (g : Grammar) : Lookahead → Nat
  | .terminal t => t
  | .endOfInput => g.terminals.length

/-- What to do once an item is complete. -/
def completion (g : Grammar) (item : Item) : Action :=
  let ofGoal := g.productions[item.production]?.any (·.lhs == g.goal)
  if item.lookahead == .endOfInput && ofGoal then .accept item.production
  else .reduce item.production

/-- Enter the completion of an item in a row. No shifts are in a row while completions are
    entered. -/
def enterCompletion (g : Grammar) (state : Nat) (row : Row) (item : Item) : Except TableError Row :=
  let col := columnOf g item.lookahead
  let action := completion g item
  match row.getD col none with
  | none => .ok (row.set col (some action))
  | some known =>
      if known = action then .ok row
      else
        let name := columnName g col
        let text := g.productionText item.production
        match known with
        | .shift _ => .error (.shiftReduce state name text)
        | .reduce p | .accept p => .error (.reduceReduce state name (g.productionText p) text)

/-- Enter a transition in a row. A state has one transition on each symbol, so a cell that holds a
    shift holds this one. -/
def enterTransition (g : Grammar) (state : Nat) (row : Row) :
    Symbol × Nat → Except TableError Row
  | (.terminal t, target) =>
      match row.getD t none with
      | none | some (.shift _) => .ok (row.set t (some (.shift target)))
      | some (.reduce p) | some (.accept p) =>
          .error (.shiftReduce state (columnName g t) (g.productionText p))
  | (.nonterminal _, _) => .ok row

/-- The row of actions of a state. -/
def actionRow (g : Grammar) (s : State) : Except TableError Row := do
  let blank : Row := List.replicate (g.terminals.length + 1) none
  let row ← (s.items.toList.filter (·.isComplete g)).foldlM (enterCompletion g s.id) blank
  s.transitions.foldlM (enterTransition g s.id) row

/-- The row of successors of a state. -/
def gotoRow (g : Grammar) (s : State) : List (Option Nat) :=
  (List.range g.nonterminals.length).map fun n => s.target? (.nonterminal n)

/-- The table of a grammar, unless two actions meet in a cell. -/
def ofGrammar (g : Grammar) : Except TableError Table := do
  let states := Collection.ofGrammar g (.ofGrammar g)
  let actions ← states.mapM (actionRow g)
  return ⟨g, actions, states.map (gotoRow g)⟩

/-- The number of states. -/
def stateCount (t : Table) : Nat := t.actions.length

/-- The column for the end of the input. -/
def endColumn (t : Table) : Nat := t.grammar.terminals.length

/-- The column of a terminal's name. The end of the input goes by a name of its own unless a
    terminal has that name. -/
def column? (t : Table) (name : String) : Option Nat :=
  match lastIndexOf? name t.grammar.terminals with
  | some i => some i
  | none => if name = endName then some t.endColumn else none

/-- The action of a state in a column. -/
def action? (t : Table) (state col : Nat) : Option Action :=
  (t.actions.getD state []).getD col none

/-- The successor of a state on a nonterminal. -/
def goto? (t : Table) (state n : Nat) : Option Nat :=
  (t.gotos.getD state []).getD n none

end Table

end Assembler
