import Assembler.Lexical.Config
import Assembler.Lexical.Recognizer

/-! # The scanner

All recognisers read the characters of a line side by side. Once none of them can go on, or the line
ends, the longest token found is cut off and the characters after it are read again from the start.
A line ends at `\n` or `\r\n`; a carriage return that no line feed follows is an ordinary character.

Each operation returns the scanner it leaves behind also when it fails, so that what a caller does
after an error is defined as well.
-/

namespace Assembler

/-- A scanner in the middle of its input. -/
structure Scanner where
  /-- The recognisers, of which the first wins a tie. -/
  recognizers : List Recognizer
  /-- Characters read that belong to no token yet. -/
  pending : List Char
  /-- The column of the first pending character. -/
  pendingCol : Nat
  /-- The column of the next character. -/
  col : Nat
  /-- The number of the current line. -/
  lineNumber : Nat
  /-- The tokens found on the current line. -/
  tokens : List Token
  /-- The finished lines that have tokens. -/
  lines : List Line
  /-- Whether the last character was a carriage return, whose meaning the next one decides. -/
  afterReturn : Bool

namespace Scanner

/-- How an operation on a scanner ends: with or without an error, and with the scanner it leaves. -/
abbrev Result := EStateM.Result LexError Scanner Unit

/-- A scanner for the given token classes, before any input. -/
def ofClasses (classes : List TokenClass) : Scanner where
  recognizers := classes.map .fresh
  pending := []
  pendingCol := 1
  col := 1
  lineNumber := 1
  tokens := []
  lines := []
  afterReturn := false

/-- A scanner for a dialect's tokens, before any input. -/
def ofConfig (cfg : LexConfig) : Scanner := ofClasses cfg.classes

/-- The length and kind of the token to cut off the pending characters; length 0 means none. -/
def cut (recognizers : List Recognizer) : Nat × Option TokenKind :=
  match Recognizer.longest recognizers with
  | some r => (r.accepted, r.kind?)
  | none => (0, none)

/-- Start all recognisers again on the characters that are left. -/
def rest (s : Scanner) (len : Nat) (kind : Option TokenKind) : Scanner :=
  let left := s.pending.drop len
  let found := kind.map fun k => Token.mk s.pendingCol (String.ofList (s.pending.take len)) k
  { s with
    recognizers := s.recognizers.map fun r => r.reset.feedAll left
    pending := left
    pendingCol := s.pendingCol + len
    tokens := s.tokens ++ found.toList }

/-- Cut tokens off the pending characters: all of them at the end of a line, and otherwise only
    while no recogniser could go on. -/
def munch (atEnd : Bool) (s : Scanner) : Result :=
  match _h : s.pending with
  | [] => .ok () { s with recognizers := s.recognizers.map .reset }
  | c :: _ =>
      if !atEnd && s.recognizers.any (·.alive) then .ok () s
      else
        match cut s.recognizers with
        | (0, _) => .error ⟨c, s.lineNumber, s.pendingCol⟩ s
        | (len + 1, kind) => munch atEnd (s.rest (len + 1) kind)
termination_by s.pending.length
decreasing_by
  simp only [rest, List.length_drop, _h, List.length_cons]
  omega

/-- Read a character that is no line break. -/
def feedChar (s : Scanner) (c : Char) : Result :=
  munch false
    { s with
      recognizers := s.recognizers.map (·.feed c)
      pending := s.pending ++ [c]
      pendingCol := if s.pending.isEmpty then s.col else s.pendingCol
      col := s.col + 1 }

/-- Finish the current line. -/
def endLine (s : Scanner) : Result :=
  match munch true s with
  | .error e s => .error e s
  | .ok () s =>
      let found := if s.tokens.isEmpty then [] else [Line.mk s.lineNumber s.tokens]
      .ok () { s with
        tokens := []
        lines := s.lines ++ found
        lineNumber := s.lineNumber + 1
        col := 1 }

/-- Read a character that follows no pending carriage return. -/
def feedPlain (s : Scanner) (c : Char) : Result :=
  if c = '\n' then s.endLine
  else if c = '\r' then .ok () { s with afterReturn := true }
  else s.feedChar c

/-- Read the next character of the input. -/
def feed (s : Scanner) (c : Char) : Result :=
  if s.afterReturn then
    let s := { s with afterReturn := false }
    if c = '\n' then s.endLine
    else
      match s.feedChar '\r' with
      | .error e s => .error e s
      | .ok () s => s.feedPlain c
  else s.feedPlain c

/-- Read characters up to the first error. -/
def feedAll (s : Scanner) : List Char → Result
  | [] => .ok () s
  | c :: cs =>
      match s.feed c with
      | .error e s => .error e s
      | .ok () s => s.feedAll cs

/-- Finish the last line, as the end of the input does. -/
def close (s : Scanner) : Result :=
  if s.afterReturn then
    match { s with afterReturn := false }.feedChar '\r' with
    | .error e s => .error e s
    | .ok () s => s.endLine
  else s.endLine

/-- End the input and return the lines that have tokens. -/
def finish (s : Scanner) : Except LexError (List Line) :=
  match s.close with
  | .error e _ => .error e
  | .ok () s => .ok s.lines

/-- Scan a whole input with a scanner that has read nothing yet. -/
def run (s : Scanner) (input : List Char) : Except LexError (List Line) :=
  match s.feedAll input with
  | .error e _ => .error e
  | .ok () s => s.finish

end Scanner

/-- The lines of tokens of a source text. -/
def scan (cfg : LexConfig) (source : String) : Except LexError (List Line) :=
  (Scanner.ofConfig cfg).run source.toList

end Assembler
