/-! # Escapes of string and character literals

A literal names a line feed, a carriage return and a tab by `\n`, `\r` and `\t`; a backslash in
front of any other character stands for that character. Printing escapes exactly the characters
that a literal could not hold as they are, and the tab.
-/

namespace Assembler.Text

/-- Decode the escapes of a literal without its quotes. A backslash at the very end is dropped. -/
def unescape : List Char → List Char
  | [] => []
  | '\\' :: 'n' :: rest => '\n' :: unescape rest
  | '\\' :: 'r' :: rest => '\r' :: unescape rest
  | '\\' :: 't' :: rest => '\t' :: unescape rest
  | '\\' :: c :: rest => c :: unescape rest
  | ['\\'] => []
  | c :: rest => c :: unescape rest

/-- The spelling of one character inside a string literal. -/
def escapeChar : Char → List Char
  | '\n' => ['\\', 'n']
  | '\r' => ['\\', 'r']
  | '\t' => ['\\', 't']
  | '\\' => ['\\', '\\']
  | '"' => ['\\', '"']
  | c => [c]

/-- The string literal that denotes a text, quotes included. -/
def stringLiteral (text : List Char) : List Char :=
  '"' :: text.flatMap escapeChar ++ ['"']

/-- A literal without its first and last character, which are its quotes. -/
def dropQuotes (text : List Char) : List Char :=
  text.tail.dropLast

end Assembler.Text
