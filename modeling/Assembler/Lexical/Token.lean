/-! # Tokens and lines of tokens -/

namespace Assembler

/-- The class of a token, which is also the terminal that a line grammar knows it by. -/
inductive TokenKind where
  /-- An identifier, such as `LOOP`. -/
  | word
  /-- An integer literal, such as `#10`, `x3000` or `0x1F`. -/
  | integer
  /-- A register, such as `R0` or `$sp`. -/
  | register
  /-- An assembler directive, such as `.orig`. -/
  | directive
  /-- A string literal, quotes included. -/
  | string
  /-- A character literal, quotes included. -/
  | char
  /-- A punctuation character that is a token by itself. -/
  | symbol (c : Char)
  deriving Repr, DecidableEq

/-- The name of the grammar terminal that matches a kind of token. -/
def TokenKind.name : TokenKind → String
  | .word => "word"
  | .integer => "int"
  | .register => "reg"
  | .directive => "pseudoop"
  | .string => "string"
  | .char => "char"
  | .symbol c => c.toString

/-- A token with the column, counted from 1, at which it starts. -/
structure Token where
  /-- The column of the first character. -/
  col : Nat
  /-- The characters of the token. -/
  text : String
  /-- The class of the token. -/
  kind : TokenKind
  deriving Repr, DecidableEq

/-- The tokens of a source line that has at least one. -/
structure Line where
  /-- The line's number, counted from 1. -/
  number : Nat
  /-- The tokens from left to right. -/
  tokens : List Token
  deriving Repr, DecidableEq

/-- A character that starts no token. -/
structure LexError where
  /-- The character. -/
  char : Char
  /-- Its line, counted from 1. -/
  line : Nat
  /-- Its column, counted from 1. -/
  col : Nat
  deriving Repr, DecidableEq

namespace LexError

/-- The message shown for the error. -/
def message (e : LexError) : String :=
  s!"unexpected character '{e.char}' at line {e.line} column {e.col}"

/-- Advice on the error: an opened literal is the usual cause of a stray quote. -/
def help (e : LexError) : String :=
  match e.char with
  | '"' => "string literals must be closed on the same line"
  | '\'' => "character literals hold exactly one character"
  | _ => "this character does not start any token in this dialect"

end LexError

end Assembler
