import Assembler.Lexical.Automaton

/-! # Recognisers: an automaton in the middle of its work

A recogniser remembers, beside the state of its automaton, how many characters it has read and how
long the longest token among their beginnings is. Once its automaton is stuck or has completed a
token, it ignores what is fed to it until it is made anew.
-/

namespace Assembler

/-- A token class at work on a run of characters. -/
structure Recognizer where
  /-- The class of token. -/
  tokenClass : TokenClass
  /-- The state of its automaton. -/
  state : tokenClass.automaton.State
  /-- The number of characters read. -/
  fed : Nat
  /-- The length of the longest token that the characters begin with, or 0. -/
  accepted : Nat
  /-- Whether a further character could matter. -/
  alive : Bool

namespace Recognizer

/-- A recogniser that has read nothing. -/
def fresh (k : TokenClass) : Recognizer :=
  ⟨k, k.automaton.start, 0, 0, true⟩

/-- Read one character. -/
def feed (r : Recognizer) (c : Char) : Recognizer :=
  if r.alive then
    match r.tokenClass.automaton.move r.state c with
    | .stuck => ⟨r.tokenClass, r.state, r.fed + 1, r.accepted, false⟩
    | .reads next => ⟨r.tokenClass, next, r.fed + 1, r.accepted, true⟩
    | .accepts next => ⟨r.tokenClass, next, r.fed + 1, r.fed + 1, true⟩
    | .completes next => ⟨r.tokenClass, next, r.fed + 1, r.fed + 1, false⟩
  else r

/-- Read a run of characters. -/
def feedAll (r : Recognizer) (cs : List Char) : Recognizer :=
  cs.foldl feed r

/-- Forget everything read. -/
def reset (r : Recognizer) : Recognizer :=
  fresh r.tokenClass

/-- The kind of token found, or `none` for a discarded class. -/
def kind? (r : Recognizer) : Option TokenKind :=
  r.tokenClass.automaton.kind? r.state

/-- The first of the recognisers that have accepted the most characters. -/
def longest : List Recognizer → Option Recognizer
  | [] => none
  | r :: rs => some (rs.foldl (fun best r => if best.accepted < r.accepted then r else best) r)

end Recognizer

end Assembler
