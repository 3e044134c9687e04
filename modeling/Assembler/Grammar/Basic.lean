/-! # Context-free grammars

Symbols are positions in the lists of terminal and nonterminal names, so that tables can be indexed
by them; the names are kept for messages and for matching terminals with kinds of token.
-/

namespace Assembler

open Std

/-- A grammar symbol, by its position among the terminals or the nonterminals. -/
inductive Symbol where
  /-- The terminal at a position. -/
  | terminal (index : Nat)
  /-- The nonterminal at a position. -/
  | nonterminal (index : Nat)
  deriving Repr, DecidableEq

namespace Symbol

/-- Terminals come first in the order of symbols. -/
def rank : Symbol → Nat
  | .terminal _ => 0
  | .nonterminal _ => 1

/-- The position among the symbols of its sort. -/
def index : Symbol → Nat
  | .terminal i => i
  | .nonterminal i => i

instance : Ord Symbol := ⟨compareLex (compareOn rank) (compareOn index)⟩

instance : TransOrd Symbol :=
  inferInstanceAs (TransCmp (compareLex (compareOn rank) (compareOn index)))

instance : LawfulEqOrd Symbol where
  compare_self := ReflCmp.compare_self
  eq_of_compare {a b} h := by
    replace h : compareLex (compareOn rank) (compareOn index) a b = .eq := h
    rw [compareLex_eq_eq] at h
    cases a <;> cases b <;> simp_all [compareOn, rank, index]

end Symbol

/-- A production; without symbols on the right it derives the empty string. -/
structure Production where
  /-- The nonterminal on the left, by position. -/
  lhs : Nat
  /-- The symbols on the right. -/
  rhs : List Symbol
  deriving Repr, DecidableEq

/-- A context-free grammar. -/
structure Grammar where
  /-- The names of the nonterminals. -/
  nonterminals : List String
  /-- The names of the terminals. -/
  terminals : List String
  /-- The productions in the order in which they were declared. -/
  productions : List Production
  /-- The nonterminal that every sentence derives from, by position. -/
  goal : Nat
  deriving Repr, DecidableEq

namespace Grammar

/-- The name of a symbol. -/
def name (g : Grammar) : Symbol → String
  | .terminal t => g.terminals.getD t ""
  | .nonterminal n => g.nonterminals.getD n ""

/-- The positions of the productions of a nonterminal, in order. -/
def productionsOf (g : Grammar) (n : Nat) : List Nat :=
  (g.productions.zipIdx.filter (·.1.lhs == n)).map (·.2)

/-- The right-hand side of the production at a position. -/
def rhs (g : Grammar) (p : Nat) : List Symbol :=
  match g.productions[p]? with
  | some production => production.rhs
  | none => []

/-- The names of a production's right-hand side, separated by blanks. -/
def rhsText (g : Grammar) (p : Nat) : String :=
  " ".intercalate ((g.rhs p).map g.name)

/-- A production as messages show it. -/
def productionText (g : Grammar) (p : Nat) : String :=
  match g.productions[p]? with
  | some production =>
      let left := g.name (.nonterminal production.lhs)
      let right := String.join (production.rhs.map fun s => " " ++ g.name s)
      s!"'{left} ->{right}'"
  | none => "''"

theorem mem_productionsOf {g : Grammar} {n p : Nat} :
    p ∈ g.productionsOf n ↔ ∃ production, g.productions[p]? = some production ∧ production.lhs = n := by
  simp only [productionsOf, List.mem_map, List.mem_filter, Prod.exists, List.mem_zipIdx_iff_getElem?,
    beq_iff_eq, exists_eq_right]

theorem rhs_eq {g : Grammar} {p : Nat} {production : Production}
    (h : g.productions[p]? = some production) : g.rhs p = production.rhs := by
  simp [rhs, h]

end Grammar

end Assembler
