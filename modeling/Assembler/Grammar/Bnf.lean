import Assembler.Grammar.Rules
import Assembler.Lexical.Automaton
import Assembler.Text.Blank

/-! # Grammars from text

A rule is written `lhs -> alternative | alternative ;`. Names that occur on a left-hand side are
the nonterminals, the first of them is the goal, and every other name is a terminal; quotes admit
terminals that are no identifiers. `%empty`, or nothing, is the empty alternative, and a comment
runs from `#` to the end of its line. Faults are reported at byte positions of the text.
-/

namespace Assembler

/-- A token of grammar text. -/
inductive BnfToken where
  /-- A bare name. -/
  | name (text : String)
  /-- A quoted name, without its quotes. -/
  | quoted (text : String)
  /-- The mark of an empty alternative. -/
  | empty
  /-- The arrow between the sides of a rule. -/
  | arrow
  /-- The bar between alternatives. -/
  | bar
  /-- The end of a rule. -/
  | semicolon
  deriving Repr, DecidableEq

/-- A token with the byte position at which it starts, or `none` where no token starts. -/
structure LocatedToken where
  /-- The byte position. -/
  pos : Nat
  /-- The token, if the text there is one. -/
  token? : Option BnfToken
  deriving Repr, DecidableEq

namespace Bnf

/-- The number of bytes that characters take in the text. -/
def byteLength (cs : List Char) : Nat :=
  cs.foldr (fun c n => c.utf8Size + n) 0

/-- A blank between tokens. -/
def isSpace (c : Char) : Bool :=
  c == ' ' || c == '\t' || c == '\r' || c == '\n'

/-- A character allowed inside quotes. -/
def isQuotable (c : Char) : Bool :=
  c != '\'' && !Text.isBlank c

/-- The longest token that starts with `c` and goes on in `cs`, with the number of characters of
    `cs` that belong to it. -/
def token? (c : Char) (cs : List Char) : Option (BnfToken × Nat) :=
  if isWordStart [] c then
    let tail := cs.takeWhile (isWordChar [])
    some (.name (String.ofList (c :: tail)), tail.length)
  else if c = '\'' then
    let body := cs.takeWhile isQuotable
    if !body.isEmpty && (cs.drop body.length).head? == some '\'' then
      some (.quoted (String.ofList body), body.length + 1)
    else none
  else if c = '%' ∧ "empty".toList.isPrefixOf cs then some (.empty, 5)
  else if c = '-' ∧ cs.head? = some '>' then some (.arrow, 1)
  else if c = '|' then some (.bar, 0)
  else if c = ';' then some (.semicolon, 0)
  else none

/-- The tokens of a text that starts at a byte position, up to the first place where none starts. -/
def tokensFrom (pos : Nat) : List Char → List LocatedToken
  | [] => []
  | c :: cs =>
      if isSpace c then tokensFrom (pos + 1) cs
      else if c = '#' then
        let comment := cs.takeWhile (· != '\n')
        tokensFrom (pos + 1 + byteLength comment) (cs.drop comment.length)
      else
        match token? c cs with
        | none => [⟨pos, none⟩]
        | some (token, len) =>
            ⟨pos, some token⟩ ::
              tokensFrom (pos + byteLength (c :: cs.take len)) (cs.drop len)
termination_by cs => cs.length
decreasing_by
  all_goals simp only [List.length_drop, List.length_cons]
  all_goals omega

/-- The rules of a list of tokens, given the rule that is being read, of which the right-hand side
    is the current alternative so far. `endPos` is the length of the text in bytes. -/
def rulesFrom (endPos : Nat) : Option Rule → List LocatedToken → Except GrammarError (List Rule)
  | none, [] => .ok []
  | some _, [] => .error (.malformed endPos "rule is missing a terminating ';'")
  | _, ⟨pos, none⟩ :: _ => .error (.malformed pos "unrecognized character")
  | none, ⟨_, some (.name lhs)⟩ :: ⟨_, some .arrow⟩ :: rest =>
      rulesFrom endPos (some ⟨lhs, []⟩) rest
  | none, ⟨_, some (.name _)⟩ :: ⟨pos, _⟩ :: _ => .error (.malformed pos "expected '->'")
  | none, [⟨_, some (.name _)⟩] => .error (.malformed endPos "expected '->'")
  | none, ⟨pos, some _⟩ :: _ => .error (.malformed pos "expected a rule name")
  | some rule, ⟨_, some (.name s)⟩ :: rest =>
      rulesFrom endPos (some ⟨rule.lhs, rule.rhs ++ [s]⟩) rest
  | some rule, ⟨_, some (.quoted s)⟩ :: rest =>
      rulesFrom endPos (some ⟨rule.lhs, rule.rhs ++ [s]⟩) rest
  | some rule, ⟨_, some .empty⟩ :: rest => rulesFrom endPos (some rule) rest
  | some rule, ⟨_, some .bar⟩ :: rest => do
      return rule :: (← rulesFrom endPos (some ⟨rule.lhs, []⟩) rest)
  | some rule, ⟨_, some .semicolon⟩ :: rest => do
      return rule :: (← rulesFrom endPos none rest)
  | some _, ⟨pos, some .arrow⟩ :: _ => .error (.malformed pos "unexpected '->', missing ';'?")

/-- The rules that a text spells out. -/
def rules (text : String) : Except GrammarError (List Rule) :=
  rulesFrom (byteLength text.toList) none (tokensFrom 0 text.toList)

/-- The first occurrences of the elements of a list, in order. -/
def distinct (names : List String) : List String :=
  names.foldl (fun seen name => if seen.contains name then seen else seen ++ [name]) []

end Bnf

/-- The grammar that a text spells out. -/
def Grammar.ofBnf (text : String) : Except GrammarError Grammar := do
  let rules ← Bnf.rules text
  let nonterminals := Bnf.distinct (rules.map (·.lhs))
  let terminals := Bnf.distinct ((rules.flatMap (·.rhs)).filter (!nonterminals.contains ·))
  match rules with
  | [] => throw .empty
  | rule :: _ => ofRules rule.lhs rules nonterminals terminals

end Assembler
