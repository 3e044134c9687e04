import Assembler.Grammar.First

/-! # LR(1) items, closure and goto

An item is a production with a cursor in its right-hand side and the lookahead that must follow it.
The closure of a set adds, for a nonterminal after a cursor, its productions with every lookahead
that can follow there. Sets are sorted, so equal sets of items are equal values.
-/

namespace Assembler

open Std

/-- A production, how much of it has been seen, and what must follow it. -/
structure Item where
  /-- The production, by position. -/
  production : Nat
  /-- How many symbols of the right-hand side have been seen. -/
  cursor : Nat
  /-- What must come after the production. -/
  lookahead : Lookahead
  deriving Repr, DecidableEq

namespace Item

instance : Ord Item :=
  ⟨compareLex (compareOn production) (compareLex (compareOn cursor) (compareOn lookahead))⟩

instance : TransOrd Item :=
  inferInstanceAs (TransCmp
    (compareLex (compareOn production) (compareLex (compareOn cursor) (compareOn lookahead))))

instance : LawfulEqOrd Item where
  compare_self := ReflCmp.compare_self
  eq_of_compare {a b} h := by
    replace h : compareLex (compareOn production)
      (compareLex (compareOn cursor) (compareOn lookahead)) a b = .eq := h
    rw [compareLex_eq_eq, compareLex_eq_eq] at h
    obtain ⟨hp, hc, hl⟩ := h
    cases a
    cases b
    simp_all [compareOn]

/-- The symbol after the cursor. -/
def next? (g : Grammar) (item : Item) : Option Symbol :=
  (g.rhs item.production)[item.cursor]?

/-- The symbols after the one behind the cursor. -/
def afterNext (g : Grammar) (item : Item) : List Symbol :=
  (g.rhs item.production).drop (item.cursor + 1)

/-- Whether the whole right-hand side has been seen. -/
def isComplete (g : Grammar) (item : Item) : Bool :=
  (g.rhs item.production).length ≤ item.cursor

/-- The item with its cursor one symbol further. -/
def advance (item : Item) : Item :=
  { item with cursor := item.cursor + 1 }

/-- The items that belong in a closed set because this one does. -/
def expand (g : Grammar) (f : FirstSets) (item : Item) : List Item :=
  match item.next? g with
  | some (.nonterminal n) =>
      let follow := f.firstOf (item.afterNext g) item.lookahead
      (g.productionsOf n).flatMap fun p => follow.toList.map fun y => ⟨p, 0, y⟩
  | _ => []

end Item

/-- A set of items. -/
abbrev ItemSet := SortedSet Item

namespace ItemSet

/-- One round of closure. -/
def closureStep (g : Grammar) (f : FirstSets) (items : ItemSet) : ItemSet :=
  items.insertAll (items.toList.flatMap (Item.expand g f))

/-- The closure of a set. Rounds add only items whose cursor is at the start, which bounds their
    number. -/
def closure (g : Grammar) (f : FirstSets) (items : ItemSet) : ItemSet :=
  let lookaheads := g.terminals.length + 1 + items.size
  stabilize (closureStep g f) (g.productions.length * lookaheads + 1) items

/-- The closed set reached by moving the cursors past a symbol. -/
def goto (g : Grammar) (f : FirstSets) (items : ItemSet) (s : Symbol) : ItemSet :=
  closure g f (.ofList ((items.toList.filter (·.next? g == some s)).map Item.advance))

/-- The symbols after the cursors, terminals first. -/
def nextSymbols (g : Grammar) (items : ItemSet) : SortedSet Symbol :=
  .ofList (items.toList.filterMap (·.next? g))

end ItemSet

end Assembler
