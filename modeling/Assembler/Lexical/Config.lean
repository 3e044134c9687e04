import Assembler.Lexical.Automaton

/-! # What a dialect's tokens look like -/

namespace Assembler

/-- The choices a dialect makes about its tokens. -/
structure LexConfig where
  /-- Characters that start a comment. -/
  commentChars : List Char := [';']
  /-- Characters that are tokens by themselves. -/
  symbols : List Char := [',', ':']
  /-- Characters that start a register, in either case. -/
  sigils : List Char := ['r']
  /-- Whether registers may be named as well as numbered. -/
  namedRegisters : Bool := false
  /-- Whether hexadecimal literals start with `0x` and not with a bare `x`. -/
  zeroMark : Bool := false
  /-- Whether a literal may start with `#`. -/
  hash : Bool := true
  /-- Further characters allowed in identifiers. -/
  extraWordChars : List Char := []
  deriving Repr, DecidableEq

/-- The token classes of a dialect. Of two that accept the same characters the earlier one wins: an
    `x1F` that is a literal is no identifier. -/
def LexConfig.classes (cfg : LexConfig) : List TokenClass :=
  [.comment cfg.commentChars, .blank, .integer cfg.zeroMark cfg.hash,
   .register cfg.sigils cfg.namedRegisters, .directive, .string, .char,
   .symbol cfg.symbols, .word cfg.extraWordChars]

end Assembler
