import Assembler.Grammar.Item

/-! # The canonical collection

The states of the LR(1) automaton are the closed sets of items reachable from the start state. They
are numbered in the order in which they are found: states are visited in order of their numbers, and
the symbols of a state in their own order.
-/

namespace Assembler

/-- A state of the automaton. -/
structure State where
  /-- The state's number. -/
  id : Nat
  /-- The closed set of items. -/
  items : ItemSet
  /-- The state reached on each symbol, in the order of symbols. -/
  transitions : List (Symbol × Nat)
  deriving DecidableEq

namespace State

/-- The state reached on a symbol. -/
def target? (s : State) (x : Symbol) : Option Nat :=
  s.transitions.lookup x

end State

namespace Collection

/-- The items of the start state: every production of the goal, with nothing seen. -/
def startItems (g : Grammar) (f : FirstSets) : ItemSet :=
  .closure g f (.ofList ((g.productionsOf g.goal).map fun p => ⟨p, 0, .endOfInput⟩))

/-- The number of a set of items among the known states, which it joins if it is new. -/
def number (states : List State) (items : ItemSet) : List State × Nat :=
  match states.findIdx? (·.items == items) with
  | some i => (states, i)
  | none => (states ++ [⟨states.length, items, []⟩], states.length)

/-- Find the state reached from `items` on each symbol of a list, together with the states known
    afterwards. -/
def targets (g : Grammar) (f : FirstSets) (items : ItemSet) :
    List State → List Symbol → List State × List (Symbol × Nat)
  | states, [] => (states, [])
  | states, x :: xs =>
      let found := number states (items.goto g f x)
      let rest := targets g f items found.1 xs
      (rest.1, (x, found.2) :: rest.2)

/-- Visit the states from number `next` on; `limit` bounds how many are visited. -/
def explore (g : Grammar) (f : FirstSets) : (limit next : Nat) → List State → List State
  | 0, _, states => states
  | limit + 1, next, states =>
      match states[next]? with
      | none => states
      | some s =>
          let found := targets g f s.items states (s.items.nextSymbols g).toList
          explore g f limit (next + 1) (found.1.set next { s with transitions := found.2 })

/-- The number of items a grammar has. -/
def itemCount (g : Grammar) : Nat :=
  g.productions.foldr (fun p n => (p.rhs.length + 1) * (g.terminals.length + 1) + n) 0

/-- The canonical collection of a grammar. There are no more states than sets of items. -/
def ofGrammar (g : Grammar) (f : FirstSets) : List State :=
  explore g f (1 <<< itemCount g + 1) 0 [⟨0, startItems g f, []⟩]

end Collection

end Assembler
