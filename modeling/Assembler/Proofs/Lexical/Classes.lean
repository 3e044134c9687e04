import Assembler.Proofs.Lexical.Patterns
import Assembler.Proofs.Lexical.Scanner

/-! # Recognisers recognise their classes of token

Each class of token has a pattern. Each state of its automaton stands for the texts that complete a
token from there on, its residual: a move on a character goes from one residual to what stands
behind the character in it. So a recogniser that has read a text knows the longest token that the
text begins with, and is alive just as long as the text can be the beginning of a token.
-/

open Computability

namespace Assembler

open Pattern

/-! ### The patterns of the classes -/

/-- An identifier, with further characters that count as letters. -/
def identifier (extra : List Char) : Language Char :=
  one (fun c => c.isAlpha || c == '_' || extra.contains c) *
    (one fun c => c.isAlpha || c.isDigit || c == '_' || extra.contains c)∗

/-- A character of a quoted literal, or a backslash and the character that it escapes. -/
def quotedUnit (quote : Char) : Language Char :=
  one (fun c => c != quote && c != '\\') + lit '\\' * one fun _ => true

/-- The letter that marks a hexadecimal literal. -/
def hexMark : Language Char := one fun c => c == 'x' || c == 'X'

/-- The texts that are tokens of a class. -/
def TokenClass.pattern : TokenClass → Language Char
  | .blank => many fun c => c == ' ' || c == '\t'
  | .word extra => identifier extra
  | .integer zeroMark hash =>
      let front := maybe (if hash then lit '#' else 0) * maybe (lit '-')
      front * many Char.isDigit +
        if zeroMark then front * lit '0' * hexMark * many isHexDigit
        else hexMark * maybe (lit '-') * many isHexDigit
  | .register sigils named =>
      one (fun c => sigils.any fun sigil => c.toLower == sigil.toLower) *
        (many Char.isDigit +
          if named then one Char.isAlpha * (one fun c => c.isAlpha || c.isDigit)∗ else 0)
  | .directive => lit '.' * identifier []
  | .string => lit '"' * (quotedUnit '"')∗ * lit '"'
  | .char => lit '\'' * quotedUnit '\'' * lit '\''
  | .symbol set => one fun c => set.contains c
  | .comment starts => one (fun c => starts.contains c) * (one fun _ => true)∗

/-! ### What the states stand for -/

/-- What a move says of the texts that may stand behind the character. -/
def Move.Follows {σ : Type} (residual : σ → Language Char) (rest : Language Char) : Move σ → Prop
  | .stuck => rest = 0
  | .reads next => rest = residual next ∧ [] ∉ rest ∧ ∃ text, text ∈ rest
  | .accepts next => rest = residual next ∧ [] ∈ rest
  | .completes _ => rest = 1

section Follows

variable {σ : Type} {residual : σ → Language Char} {rest : Language Char} {next : σ}
  {m m' : Move σ} {b : Prop}

@[simp] theorem Move.follows_stuck : (Move.stuck).Follows residual rest ↔ rest = 0 := Iff.rfl

@[simp] theorem Move.follows_reads : (Move.reads next).Follows residual rest ↔
    rest = residual next ∧ [] ∉ rest ∧ ∃ text, text ∈ rest := Iff.rfl

@[simp] theorem Move.follows_accepts : (Move.accepts next).Follows residual rest ↔
    rest = residual next ∧ [] ∈ rest := Iff.rfl

@[simp] theorem Move.follows_completes :
    (Move.completes next).Follows residual rest ↔ rest = 1 := Iff.rfl

@[simp] theorem Move.follows_ite [Decidable b] : (if b then m else m').Follows residual rest ↔
    (b → m.Follows residual rest) ∧ (¬b → m'.Follows residual rest) := by
  split <;> simp_all

end Follows

@[simp] theorem exists_isDigit : ∃ c, Char.isDigit c = true := ⟨'0', rfl⟩

@[simp] theorem exists_isHexDigit : ∃ c, isHexDigit c = true := ⟨'0', rfl⟩

theorem not_mark_of_isDigit {c : Char} (h : c.isDigit = true) : ¬(c = 'x' ∨ c = 'X') := by
  rintro (rfl | rfl) <;> cases h

theorem isAlpha_of_isDigit {c : Char} (h : c.isDigit = true) : c.isAlpha = false := by
  simp only [Char.isDigit, Bool.and_eq_true, decide_eq_true_eq] at h
  have high : c.toNat ≤ 57 := h.2
  have upper : c.isUpper = false := by
    refine decide_eq_false fun range => ?_
    have low : 65 ≤ c.toNat := range.1
    omega
  have lower : c.isLower = false := by
    have under : ¬c.val ≥ 'a'.val := by
      intro range
      have low : 97 ≤ c.toNat := range
      omega
    exact Bool.and_eq_false_iff.2 (.inl (decide_eq_false under))
  exact Bool.or_eq_false_iff.2 ⟨upper, lower⟩

namespace Automaton

/-! Automata whose moves are read off their patterns by the rules above. A sum of languages is kept
as a sum (`-add_eq_sup`), since the rules speak of sums. -/

/-- An automaton whose states stand for what completes a token of a language. -/
structure Recognizes (A : Automaton) (L : Language Char) (residual : A.State → Language Char) :
    Prop where
  solid : [] ∉ L
  start : ∀ c, after L c = after (residual A.start) c
  move : ∀ s c, (A.move s c).Follows residual (after (residual s) c)

theorem recognizes_blank : blank.Recognizes (TokenClass.blank.pattern)
    fun _ => (one fun c => c == ' ' || c == '\t')∗ where
  solid := by simp [TokenClass.pattern]
  start c := by simp [TokenClass.pattern]
  move s c := by simp +contextual [blank]

def wordResidual (extra : List Char) : Progress → Language Char
  | .start => identifier extra
  | .inside => (one fun c => c.isAlpha || c.isDigit || c == '_' || extra.contains c)∗

theorem recognizes_word (extra : List Char) :
    (word extra).Recognizes (TokenClass.word extra).pattern (wordResidual extra) where
  solid := by simp [TokenClass.pattern, identifier]
  start c := rfl
  move s c := by
    cases s with
    | start => simp +contextual [word, wordResidual, identifier, isWordStart]
    | inside => simp +contextual [word, wordResidual, isWordChar, Char.isAlphanum]

def directiveResidual : DirectiveState → Language Char
  | .start => lit '.' * identifier []
  | .dot => identifier []
  | .name => wordResidual [] .inside

theorem recognizes_directive :
    directive.Recognizes TokenClass.directive.pattern directiveResidual where
  solid := by simp [TokenClass.pattern]
  start c := rfl
  move s c := by
    cases s with
    | start => simp +contextual [directive, directiveResidual, identifier]
    | dot =>
        simp +contextual [directive, directiveResidual, identifier, wordResidual, isWordStart]
    | name =>
        simp +contextual [directive, directiveResidual, wordResidual, isWordChar, Char.isAlphanum]

def stringResidual : QuoteState → Language Char
  | .start => lit '"' * ((quotedUnit '"')∗ * lit '"')
  | .opened => (quotedUnit '"')∗ * lit '"'
  | .escape => one (fun _ => true) * ((quotedUnit '"')∗ * lit '"')
  | .full => 0
  | .closed => 0

theorem recognizes_string : string.Recognizes TokenClass.string.pattern stringResidual where
  solid := by simp [TokenClass.pattern]
  start c := by simp [TokenClass.pattern, stringResidual, string, mul_assoc]
  move s c := by
    cases s with
    | start => simp +contextual [string, stringMove, stringResidual]
    | opened => simp +contextual [-add_eq_sup, string, stringMove, stringResidual, quotedUnit]
    | escape => simp [string, stringMove, stringResidual]
    | full => simp [string, stringMove, stringResidual]
    | closed => simp [string, stringMove, stringResidual]

def charResidual : QuoteState → Language Char
  | .start => lit '\'' * (quotedUnit '\'' * lit '\'')
  | .opened => quotedUnit '\'' * lit '\''
  | .escape => one (fun _ => true) * lit '\''
  | .full => lit '\''
  | .closed => 0

theorem recognizes_char : char.Recognizes TokenClass.char.pattern charResidual where
  solid := by simp [TokenClass.pattern]
  start c := by simp [TokenClass.pattern, charResidual, char, mul_assoc]
  move s c := by
    cases s with
    | start => simp +contextual [-add_eq_sup, char, charMove, charResidual, quotedUnit]
    | opened => simp +contextual [-add_eq_sup, char, charMove, charResidual, quotedUnit]
    | escape => simp [char, charMove, charResidual]
    | full => simp +contextual [char, charMove, charResidual]
    | closed => simp [char, charMove, charResidual]

def symbolResidual (set : List Char) : Option Char → Language Char
  | none => one fun c => set.contains c
  | some _ => 0

theorem recognizes_symbol (set : List Char) :
    (symbol set).Recognizes (TokenClass.symbol set).pattern (symbolResidual set) where
  solid := by simp [TokenClass.pattern]
  start c := rfl
  move s c := by
    cases s with
    | none => simp +contextual [symbol, symbolResidual]
    | some _ => simp [symbol, symbolResidual]

def commentResidual (starts : List Char) : Progress → Language Char
  | .start => one (fun c => starts.contains c) * (one fun _ => true)∗
  | .inside => (one fun _ => true)∗

theorem recognizes_comment (starts : List Char) :
    (comment starts).Recognizes (TokenClass.comment starts).pattern (commentResidual starts) where
  solid := by simp [TokenClass.pattern]
  start c := rfl
  move s c := by
    cases s with
    | start => simp +contextual [comment, commentResidual]
    | inside => simp [comment, commentResidual]

def registerResidual (sigils : List Char) (named : Bool) : RegisterState → Language Char
  | .start => (TokenClass.register sigils named).pattern
  | .sigil => many Char.isDigit +
      if named then one Char.isAlpha * (one fun c => c.isAlpha || c.isDigit)∗ else 0
  | .number => (one Char.isDigit)∗
  | .name => (one fun c => c.isAlpha || c.isDigit)∗

theorem contains_map_toLower (sigils : List Char) (c : Char) :
    (sigils.map Char.toLower).contains c.toLower =
      sigils.any fun sigil => c.toLower == sigil.toLower := by
  rw [List.contains_eq_any_beq, List.any_map]
  rfl

theorem recognizes_register (sigils : List Char) (named : Bool) :
    (register sigils named).Recognizes (TokenClass.register sigils named).pattern
      (registerResidual sigils named) where
  solid := by simp [TokenClass.pattern]
  start c := rfl
  move s c := by
    cases s with
    | start =>
        simp only [register, registerMove, contains_map_toLower]
        cases named <;> simp +contextual [-add_eq_sup, registerResidual, TokenClass.pattern]
    | sigil =>
        cases named <;>
          simp +contextual [-add_eq_sup, register, registerMove, registerResidual,
            isAlpha_of_isDigit]
    | number => simp +contextual [register, registerMove, registerResidual]
    | name => simp +contextual [register, registerMove, registerResidual, Char.isAlphanum]

def unsignedPattern (zeroMark : Bool) : Language Char :=
  many Char.isDigit + if zeroMark then lit '0' * (hexMark * many isHexDigit) else 0

def integerResidual (zeroMark hash : Bool) : IntegerState → Language Char
  | .start => maybe (if hash then lit '#' else 0) * (maybe (lit '-') * unsignedPattern zeroMark) +
      if zeroMark then 0 else hexMark * (maybe (lit '-') * many isHexDigit)
  | .hash => maybe (lit '-') * unsignedPattern zeroMark
  | .minus => unsignedPattern zeroMark
  | .zero => (one Char.isDigit)∗ + if zeroMark then hexMark * many isHexDigit else 0
  | .decimal => (one Char.isDigit)∗
  | .hexMark => maybe (if zeroMark then 0 else lit '-') * many isHexDigit
  | .hexMinus => many isHexDigit
  | .hex => (one isHexDigit)∗

theorem isHexDigit_minus : isHexDigit '-' = false := by decide

theorem recognizes_integer (zeroMark hash : Bool) :
    (integer zeroMark hash).Recognizes (TokenClass.integer zeroMark hash).pattern
      (integerResidual zeroMark hash) where
  solid := by cases zeroMark <;> cases hash <;> simp [-add_eq_sup, TokenClass.pattern, hexMark]
  start c := by
    cases zeroMark <;>
      simp [-add_eq_sup, TokenClass.pattern, integer, integerResidual, unsignedPattern, mul_add,
        mul_assoc]
  move s c := by
    cases s with
    | start =>
        cases zeroMark <;> cases hash <;>
          simp +contextual [-add_eq_sup, integer, integerMove, integerResidual, unsignedPattern,
            hexMark, not_mark_of_isDigit]
    | hash =>
        cases zeroMark <;>
          simp +contextual [-add_eq_sup, integer, integerMove, integerResidual, unsignedPattern]
    | minus =>
        cases zeroMark <;>
          simp +contextual [-add_eq_sup, integer, integerMove, integerResidual, unsignedPattern]
    | zero =>
        cases zeroMark with
        | false => simp +contextual [-add_eq_sup, integer, integerMove, integerResidual]
        | true =>
            -- without this split a mark could still be a digit
            by_cases digit : c.isDigit = true
            · simp [-add_eq_sup, integer, integerMove, integerResidual, hexMark, digit,
                not_mark_of_isDigit digit]
            · simp +contextual [-add_eq_sup, integer, integerMove, integerResidual, hexMark, digit]
    | decimal => simp +contextual [integer, integerMove, integerResidual]
    | hexMark =>
        cases zeroMark <;>
          simp +contextual [-add_eq_sup, integer, integerMove, integerResidual, isHexDigit_minus]
    | hexMinus => simp +contextual [integer, integerMove, integerResidual]
    | hex => simp +contextual [integer, integerMove, integerResidual]

end Automaton

theorem TokenClass.exists_recognizes (k : TokenClass) :
    ∃ residual, k.automaton.Recognizes k.pattern residual := by
  cases k with
  | blank => exact ⟨_, Automaton.recognizes_blank⟩
  | word extra => exact ⟨_, Automaton.recognizes_word extra⟩
  | integer zeroMark hash => exact ⟨_, Automaton.recognizes_integer zeroMark hash⟩
  | register sigils named => exact ⟨_, Automaton.recognizes_register sigils named⟩
  | directive => exact ⟨_, Automaton.recognizes_directive⟩
  | string => exact ⟨_, Automaton.recognizes_string⟩
  | char => exact ⟨_, Automaton.recognizes_char⟩
  | symbol set => exact ⟨_, Automaton.recognizes_symbol set⟩
  | comment starts => exact ⟨_, Automaton.recognizes_comment starts⟩

end Assembler
