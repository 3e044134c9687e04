import Assembler.Lexical.Token
import Assembler.Text.Quoted

/-! # Parse trees

A node carries the name of its symbol. Token leaves have a text and no children; nodes of
nonterminals have children in source order and no text. A nonterminal that covers no token is a
childless node with empty text, which is not a leaf.
-/

namespace Assembler

/-- A node of a parse tree. -/
structure Tree where
  /-- The name of the terminal or nonterminal. -/
  symbol : String
  /-- The text of a token, empty for a nonterminal. -/
  text : String
  /-- The line, counted from 1. -/
  line : Nat
  /-- The column of the first child, or of the token; 0 if there is neither. -/
  col : Nat
  /-- The children from left to right. -/
  children : List Tree

namespace Tree

/-- The leaf of a token. -/
def leaf (line : Nat) (token : Token) : Tree :=
  ⟨token.kind.name, token.text, line, token.col, []⟩

/-- The node of a nonterminal over its children. -/
def node (symbol : String) (line : Nat) (children : List Tree) : Tree :=
  ⟨symbol, "", line, (children.head?.map (·.col)).getD 0, children⟩

/-- Whether a node is a token. -/
def isLeaf (t : Tree) : Bool :=
  t.children.isEmpty && !t.text.isEmpty

/-- The symbols of the children, which tell the production of a node. -/
def shape (t : Tree) : List String :=
  t.children.map (·.symbol)

mutual
/-- The tokens of a tree from left to right. -/
def leaves : Tree → List Tree
  | ⟨symbol, text, line, col, []⟩ =>
      if text.isEmpty then [] else [⟨symbol, text, line, col, []⟩]
  | ⟨_, _, _, _, child :: children⟩ => leaves child ++ leavesOf children

/-- The tokens of a row of trees from left to right. -/
def leavesOf : List Tree → List Tree
  | [] => []
  | t :: ts => leaves t ++ leavesOf ts
end

mutual
/-- A tree as a bracketed term, with tokens quoted. -/
def render : Tree → String
  | ⟨symbol, text, _, _, []⟩ =>
      if text.isEmpty then s!"({symbol})" else Text.quoted text
  | ⟨symbol, _, _, _, child :: children⟩ =>
      s!"({symbol} " ++ render child ++ renderRest children ++ ")"

/-- The terms of a row of trees, each after a blank. -/
def renderRest : List Tree → String
  | [] => ""
  | t :: ts => " " ++ render t ++ renderRest ts
end

mutual
/-- Decide whether two trees are equal. -/
def decEq : (a b : Tree) → Decidable (a = b)
  | ⟨symbol, text, line, col, children⟩, ⟨symbol', text', line', col', children'⟩ =>
      match decEqAll children children' with
      | isTrue h =>
          decidable_of_decidable_of_iff
            (show (symbol = symbol' ∧ text = text' ∧ line = line' ∧ col = col') ↔ _ by simp [h])
      | isFalse h => isFalse fun same => h (congrArg Tree.children same)

/-- Decide whether two rows of trees are equal. -/
def decEqAll : (as bs : List Tree) → Decidable (as = bs)
  | [], [] => isTrue rfl
  | [], _ :: _ => isFalse (by simp)
  | _ :: _, [] => isFalse (by simp)
  | a :: as, b :: bs =>
      match decEq a b, decEqAll as bs with
      | isTrue h, isTrue hs => isTrue (by rw [h, hs])
      | isFalse h, _ => isFalse (by simp [h])
      | _, isFalse hs => isFalse (by simp [hs])
end

instance : DecidableEq Tree := decEq

end Tree

end Assembler
