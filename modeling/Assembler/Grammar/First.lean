import Assembler.Collections.Fixpoint
import Assembler.Collections.SortedSet
import Assembler.Grammar.Basic

/-! # FIRST sets

For each nonterminal, the terminals that can begin what it derives and whether it can derive the
empty string, as the least solution of one equation per nonterminal. A round reads the sets of the
round before it, and rounds are repeated until nothing changes.
-/

namespace Assembler

open Std

/-- What can come next: a terminal, or the end of the input after all of them. -/
inductive Lookahead where
  /-- The terminal at a position. -/
  | terminal (index : Nat)
  /-- The end of the input. -/
  | endOfInput
  deriving Repr, DecidableEq

namespace Lookahead

/-- Terminals come before the end of the input. -/
def rank : Lookahead → Nat
  | .terminal _ => 0
  | .endOfInput => 1

/-- The position of a terminal. -/
def index : Lookahead → Nat
  | .terminal i => i
  | .endOfInput => 0

instance : Ord Lookahead := ⟨compareLex (compareOn rank) (compareOn index)⟩

instance : TransOrd Lookahead :=
  inferInstanceAs (TransCmp (compareLex (compareOn rank) (compareOn index)))

instance : LawfulEqOrd Lookahead where
  compare_self := ReflCmp.compare_self
  eq_of_compare {a b} h := by
    replace h : compareLex (compareOn rank) (compareOn index) a b = .eq := h
    rw [compareLex_eq_eq] at h
    cases a <;> cases b <;> simp_all [compareOn, rank, index]

end Lookahead

/-- What a symbol or a sequence of symbols can begin with. -/
structure FirstSet where
  /-- The terminals that can come first. -/
  terminals : SortedSet Nat
  /-- Whether it can be empty. -/
  nullable : Bool
  deriving DecidableEq

namespace FirstSet

/-- Nothing is known to come first. -/
def empty : FirstSet := ⟨.empty, false⟩

/-- What either of two can begin with. -/
def union (a b : FirstSet) : FirstSet :=
  ⟨a.terminals ∪ b.terminals, a.nullable || b.nullable⟩

/-- What `a` followed by `b` can begin with. -/
def seq (a b : FirstSet) : FirstSet :=
  if a.nullable then ⟨a.terminals ∪ b.terminals, b.nullable⟩ else a

@[simp] theorem mem_terminals_seq {a b : FirstSet} {t : Nat} :
    t ∈ (a.seq b).terminals ↔ t ∈ a.terminals ∨ (a.nullable = true ∧ t ∈ b.terminals) := by
  simp only [seq]
  split <;> simp_all

@[simp] theorem nullable_seq (a b : FirstSet) :
    (a.seq b).nullable = (a.nullable && b.nullable) := by
  simp only [seq]
  split <;> simp_all

end FirstSet

/-- The FIRST sets of the nonterminals of a grammar, by position. -/
structure FirstSets where
  /-- One set for each nonterminal. -/
  sets : List FirstSet
  deriving DecidableEq

namespace FirstSets

/-- The set of a nonterminal. -/
def get (f : FirstSets) (n : Nat) : FirstSet :=
  f.sets.getD n .empty

/-- The terminals that can begin a nonterminal. -/
def first (f : FirstSets) (n : Nat) : SortedSet Nat := (f.get n).terminals

/-- Whether a nonterminal can derive the empty string. -/
def nullable (f : FirstSets) (n : Nat) : Bool := (f.get n).nullable

/-- The set of one symbol. -/
def symbol (f : FirstSets) : Symbol → FirstSet
  | .terminal t => ⟨.ofList [t], false⟩
  | .nonterminal n => f.get n

/-- The set of a sequence of symbols. -/
def sequence (f : FirstSets) : List Symbol → FirstSet
  | [] => ⟨.empty, true⟩
  | s :: rest => (f.symbol s).seq (f.sequence rest)

/-- What can come first in a sequence of symbols with `next` after it. -/
def firstOf (f : FirstSets) (symbols : List Symbol) (next : Lookahead) : SortedSet Lookahead :=
  let s := f.sequence symbols
  let begins := SortedSet.ofList (s.terminals.toList.map .terminal)
  if s.nullable then begins.insert next else begins

/-- One round: add to every nonterminal what its productions can begin with. -/
def step (g : Grammar) (f : FirstSets) : FirstSets :=
  ⟨f.sets.mapIdx fun n set =>
    (g.productionsOf n).foldl (fun acc p => acc.union (f.sequence (g.rhs p))) set⟩

/-- The sets before the first round. -/
def start (g : Grammar) : FirstSets :=
  ⟨g.nonterminals.map fun _ => .empty⟩

/-- The FIRST sets of a grammar. Each round but the last adds a terminal or makes a nonterminal
    nullable, which bounds the number of rounds. -/
def ofGrammar (g : Grammar) : FirstSets :=
  stabilize (step g) (g.nonterminals.length * (g.terminals.length + 1) + 1) (start g)

end FirstSets

end Assembler
