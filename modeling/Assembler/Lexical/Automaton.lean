import Assembler.Lexical.Token

/-! # Automata of the token classes

Each class of token is a deterministic automaton over characters. A move says whether the characters
so far can still become a token, are one, or are one that nothing can extend. The classes are listed
by `TokenClass`, whose parameters are what dialects differ in.
-/

namespace Assembler

/-- What an automaton makes of the next character. -/
inductive Move (σ : Type) where
  /-- No token of the class starts like this. -/
  | stuck
  /-- Not a token yet. -/
  | reads (next : σ)
  /-- A token, which further characters may extend. -/
  | accepts (next : σ)
  /-- A token that no character can extend. -/
  | completes (next : σ)
  deriving Repr, DecidableEq

/-- A deterministic recogniser of one class of token. -/
structure Automaton where
  /-- The states. -/
  State : Type
  /-- The state before any character. -/
  start : State
  /-- The move on a character. -/
  move : State → Char → Move State
  /-- The kind of the token, unless the class is discarded. -/
  kind? : State → Option TokenKind

/-- A character that may start an identifier. -/
def isWordStart (extra : List Char) (c : Char) : Bool :=
  c.isAlpha || c == '_' || extra.contains c

/-- A character that may continue an identifier. -/
def isWordChar (extra : List Char) (c : Char) : Bool :=
  c.isAlphanum || c == '_' || extra.contains c

/-- A hexadecimal digit in either case. -/
def isHexDigit (c : Char) : Bool :=
  c.isDigit || ('a' ≤ c && c ≤ 'f') || ('A' ≤ c && c ≤ 'F')

namespace Automaton

/-- Runs of spaces and tabs, which are discarded. -/
def blank : Automaton where
  State := Unit
  start := ()
  move _ c := if c == ' ' || c == '\t' then .accepts () else .stuck
  kind? _ := none

/-- Whether a run of characters has begun. -/
inductive Progress where
  /-- Nothing has been read. -/
  | start
  /-- At least one character has been read. -/
  | inside
  deriving Repr, DecidableEq

/-- Identifiers, with further characters that count as letters. -/
def word (extra : List Char) : Automaton where
  State := Progress
  start := .start
  move s c :=
    match s with
    | .start => if isWordStart extra c then .accepts .inside else .stuck
    | .inside => if isWordChar extra c then .accepts .inside else .stuck
  kind? _ := some .word

/-- How far an integer literal has been read. -/
inductive IntegerState where
  /-- Nothing has been read. -/
  | start
  /-- After the `#`. -/
  | hash
  /-- After the sign of a decimal literal. -/
  | minus
  /-- After a leading zero, which may yet begin a hexadecimal literal. -/
  | zero
  /-- Inside decimal digits. -/
  | decimal
  /-- After the mark of a hexadecimal literal. -/
  | hexMark
  /-- After the sign that follows the mark. -/
  | hexMinus
  /-- Inside hexadecimal digits. -/
  | hex
  deriving Repr, DecidableEq

/-- The move of the integer automaton. Hexadecimal literals are marked by `0x` if `zeroMark` is set
    and by a bare `x`, which a sign may follow, otherwise; `hash` admits a `#` in front. -/
def integerMove (zeroMark hash : Bool) (s : IntegerState) (c : Char) : Move IntegerState :=
  match s with
  | .start =>
      if c == '#' && hash then .reads .hash
      else if c == '-' then .reads .minus
      else if c == '0' then .accepts .zero
      else if c.isDigit then .accepts .decimal
      else if (c == 'x' || c == 'X') && !zeroMark then .reads .hexMark
      else .stuck
  | .hash =>
      if c == '-' then .reads .minus
      else if c == '0' then .accepts .zero
      else if c.isDigit then .accepts .decimal
      else .stuck
  | .minus =>
      if c == '0' then .accepts .zero
      else if c.isDigit then .accepts .decimal
      else .stuck
  | .zero =>
      if (c == 'x' || c == 'X') && zeroMark then .reads .hexMark
      else if c.isDigit then .accepts .decimal
      else .stuck
  | .decimal => if c.isDigit then .accepts .decimal else .stuck
  | .hexMark =>
      if c == '-' && !zeroMark then .reads .hexMinus
      else if isHexDigit c then .accepts .hex
      else .stuck
  | .hexMinus => if isHexDigit c then .accepts .hex else .stuck
  | .hex => if isHexDigit c then .accepts .hex else .stuck

/-- Decimal and hexadecimal integer literals. -/
def integer (zeroMark hash : Bool) : Automaton where
  State := IntegerState
  start := .start
  move := integerMove zeroMark hash
  kind? _ := some .integer

/-- How far a register has been read. -/
inductive RegisterState where
  /-- Nothing has been read. -/
  | start
  /-- After the character that marks a register. -/
  | sigil
  /-- Inside the digits of a numbered register. -/
  | number
  /-- Inside the name of a named register. -/
  | name
  deriving Repr, DecidableEq

/-- The move of the register automaton; the sigils are compared without regard to case. -/
def registerMove (sigils : List Char) (named : Bool) (s : RegisterState) (c : Char) :
    Move RegisterState :=
  match s with
  | .start => if (sigils.map Char.toLower).contains c.toLower then .reads .sigil else .stuck
  | .sigil =>
      if c.isDigit then .accepts .number
      else if named && c.isAlpha then .accepts .name
      else .stuck
  | .number => if c.isDigit then .accepts .number else .stuck
  | .name => if c.isAlphanum then .accepts .name else .stuck

/-- Registers: a sigil and a number or, if `named` is set, a name. -/
def register (sigils : List Char) (named : Bool) : Automaton where
  State := RegisterState
  start := .start
  move := registerMove sigils named
  kind? _ := some .register

/-- How far a directive has been read. -/
inductive DirectiveState where
  /-- Nothing has been read. -/
  | start
  /-- After the dot. -/
  | dot
  /-- Inside the name. -/
  | name
  deriving Repr, DecidableEq

/-- Assembler directives: a dot and an identifier. -/
def directive : Automaton where
  State := DirectiveState
  start := .start
  move s c :=
    match s with
    | .start => if c == '.' then .reads .dot else .stuck
    | .dot => if isWordStart [] c then .accepts .name else .stuck
    | .name => if isWordChar [] c then .accepts .name else .stuck
  kind? _ := some .directive

/-- How far a quoted literal has been read. -/
inductive QuoteState where
  /-- Nothing has been read. -/
  | start
  /-- After the opening quote, where content may follow. -/
  | opened
  /-- After a backslash. -/
  | escape
  /-- After the one character of a character literal. -/
  | full
  /-- After the closing quote. -/
  | closed
  deriving Repr, DecidableEq

/-- The move of the string automaton. -/
def stringMove : QuoteState → Char → Move QuoteState
  | .start, c => if c == '"' then .reads .opened else .stuck
  | .opened, c =>
      if c == '\\' then .reads .escape
      else if c == '"' then .completes .closed
      else .reads .opened
  | .escape, _ => .reads .opened
  | .full, _ => .stuck
  | .closed, _ => .stuck

/-- String literals, in which a backslash escapes the next character. -/
def string : Automaton where
  State := QuoteState
  start := .start
  move := stringMove
  kind? _ := some .string

/-- The move of the character automaton. -/
def charMove : QuoteState → Char → Move QuoteState
  | .start, c => if c == '\'' then .reads .opened else .stuck
  | .opened, c =>
      if c == '\\' then .reads .escape
      else if c == '\'' then .stuck
      else .reads .full
  | .escape, _ => .reads .full
  | .full, c => if c == '\'' then .completes .closed else .stuck
  | .closed, _ => .stuck

/-- Character literals, which hold exactly one character, escaped or not. -/
def char : Automaton where
  State := QuoteState
  start := .start
  move := charMove
  kind? _ := some .char

/-- Single characters of a set. The state remembers which one was read, since it is the kind. -/
def symbol (set : List Char) : Automaton where
  State := Option Char
  start := none
  move s c :=
    match s with
    | none => if set.contains c then .completes (some c) else .stuck
    | some _ => .stuck
  kind? s := s.map .symbol

/-- Comments, which run from a start character to the end of the line and are discarded. -/
def comment (starts : List Char) : Automaton where
  State := Progress
  start := .start
  move s c :=
    match s with
    | .start => if starts.contains c then .accepts .inside else .stuck
    | .inside => .accepts .inside
  kind? _ := none

end Automaton

/-- The classes of token a scanner can be given. -/
inductive TokenClass where
  /-- Runs of spaces and tabs. -/
  | blank
  /-- Identifiers; `extra` lists further characters that count as letters. -/
  | word (extra : List Char)
  /-- Integer literals; `zeroMark` asks for `0x` and not `x` before hexadecimal digits, and `hash`
      admits a `#` at the start. -/
  | integer (zeroMark hash : Bool)
  /-- Registers; `sigils` start one, `named` admits names beside numbers. -/
  | register (sigils : List Char) (named : Bool)
  /-- Assembler directives. -/
  | directive
  /-- String literals. -/
  | string
  /-- Character literals. -/
  | char
  /-- Single punctuation characters. -/
  | symbol (set : List Char)
  /-- Comments up to the end of the line. -/
  | comment (starts : List Char)
  deriving Repr, DecidableEq

/-- The automaton of a token class. -/
def TokenClass.automaton : TokenClass → Automaton
  | .blank => .blank
  | .word extra => .word extra
  | .integer zeroMark hash => .integer zeroMark hash
  | .register sigils named => .register sigils named
  | .directive => .directive
  | .string => .string
  | .char => .char
  | .symbol set => .symbol set
  | .comment starts => .comment starts

end Assembler
