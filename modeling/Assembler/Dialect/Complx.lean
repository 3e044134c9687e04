import Assembler.Dialect.Leaf
import Assembler.Lexical.Config
import Assembler.Program.Builder

/-! # The Complx dialect of LC-3 assembly

Labels need no colon and the line grammar does not know mnemonics, so the words in front of a line
are sorted after parsing:

* a word followed by a colon is a label;
* if operands follow, the last word is the mnemonic and the words before it are labels; if a comma
  follows, the last word is the first operand and the one before it the mnemonic;
* if a directive follows, all words are labels;
* otherwise a lone word is an instruction if it is a mnemonic and a label if not; of two words, a
  mnemonic takes the second as its operand, and else the first is a label and the second is sorted
  like a lone word; three words are a label, a mnemonic and an operand.
-/

namespace Assembler.Complx

/-- The line grammar. -/
def grammarText : String := "
    line -> words | words ',' oplist | words arg | words arg ',' oplist
          | words pseudo | pseudo ;

    # up to three leading words, the first optionally followed by a colon
    words -> word | word ':' | word word | word ':' word
           | word word word | word ':' word word ;

    pseudo -> pseudoop | pseudoop operand ;
    oplist -> operand | oplist ',' operand ;
    operand -> word | arg ;
    arg -> reg | int | string | char ;
"

/-- Sections run from `.orig` to `.end`. -/
def sections : SectionPolicy := .explicit "orig" "end"

/-- The data directives. -/
def directives : List DirectiveSpec :=
  [⟨"fill", .integer, .word⟩, ⟨"fill", .label, .word⟩, ⟨"blkw", .integer, .block⟩,
   ⟨"stringz", .string, .stringz⟩]

/-- The tokens: `;` comments, registers marked by `r`, `x` in front of hexadecimal digits and `#` in
    front of decimal ones. -/
def config : LexConfig := {}

/-- What follows the words in front of a line. -/
inductive Tail where
  /-- Nothing. -/
  | nothing
  /-- Operands of which the first is no word. -/
  | operands (leaves : List Tree)
  /-- A comma and operands, so that the last word is an operand too. -/
  | comma (leaves : List Tree)

/-- An instruction with a mnemonic as written. -/
def instruction (line : Nat) (op : String) (operands : List Operand) : Option Statement :=
  some (.instruction ⟨op.toLower, operands, line⟩)

/-- Sort words and what follows them into labels and a statement; `labels` are those known
    already. -/
def sortWords (isa : Isa) (line : Nat) (labels : List String) :
    Tail → List String → Except SemanticError LineContents
  | .nothing, [] => .ok ⟨labels, none⟩
  | .nothing, [a] =>
      if isa.isMnemonic a then .ok ⟨labels, instruction line a []⟩
      else .ok ⟨labels ++ [a], none⟩
  | .nothing, [a, b] =>
      if isa.isMnemonic a then .ok ⟨labels, instruction line a [.label b]⟩
      else if isa.isMnemonic b then .ok ⟨labels ++ [a], instruction line b []⟩
      else .ok ⟨labels ++ [a, b], none⟩
  | .nothing, [a, b, c] => .ok ⟨labels ++ [a], instruction line b [.label c]⟩
  | .nothing, _ => .error (.malformed line)
  | .operands leaves, words =>
      match words.reverse with
      | op :: before => do
          let operands ← leaves.mapM (Tree.operand isa)
          return ⟨labels ++ before.reverse, instruction line op operands⟩
      | [] => .error (.malformed line)
  | .comma leaves, words =>
      match words.reverse with
      | first :: op :: before => do
          let operands ← leaves.mapM (Tree.operand isa)
          return ⟨labels ++ before.reverse, instruction line op (.label first :: operands)⟩
      | _ => .error (.malformed line)

/-- The words of a node of words. -/
def wordsOf (node : Tree) : List String :=
  (node.children.filter (·.symbol == "word")).map (·.text)

/-- Whether a colon follows the first word. -/
def hasColon (node : Tree) : Bool :=
  node.children[1]?.any (·.symbol == ":")

/-- The operand leaves of a node in order. -/
def operandLeaves (node : Tree) : List Tree :=
  node.leaves.filter (·.symbol != ",")

/-- Sort a node of words and what follows it. -/
def classify (isa : Isa) (line : Nat) (node : Tree) (tail : Tail) :
    Except SemanticError LineContents :=
  if hasColon node then
    match wordsOf node with
    | [] => .error (.fault .colonWithoutWord)
    | label :: rest => sortWords isa line [label] tail rest
  else sortWords isa line [] tail (wordsOf node)

/-- The labels and the statement of a line's tree. -/
def contents (isa : Isa) (tree : Tree) : Except SemanticError LineContents :=
  match tree.children with
  | [only] =>
      if only.symbol = "pseudo" then do
        return ⟨[], some (.directive (← only.directive isa))⟩
      else classify isa tree.line only .nothing
  | [words, second] =>
      if second.symbol = "pseudo" then do
        return ⟨wordsOf words, some (.directive (← second.directive isa))⟩
      else classify isa tree.line words (.operands (operandLeaves second))
  | [words, comma, list] =>
      if comma.symbol = "," then classify isa tree.line words (.comma (operandLeaves list))
      else .error (.malformed tree.line)
  | [words, first, _, list] =>
      classify isa tree.line words (.operands (operandLeaves first ++ operandLeaves list))
  | _ => .error (.malformed tree.line)

end Assembler.Complx
