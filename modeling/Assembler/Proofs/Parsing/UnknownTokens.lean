import Assembler.Proofs.Parsing.Termination

/-! # Tokens of unknown kinds

A kind that names no terminal of the grammar has no column, and a token of that kind is refused. The
exception is a kind that is called as the end of the input is: such a token is read as the end. The
tokens before it are then parsed as a line of their own, and the tokens behind it do not matter. In
either case no token of an unknown kind is ever taken.
-/

namespace Assembler

/-- The error of a line where it goes on with a token, for its error if it ended there. -/
def ParseError.before (token : Token) : ParseError → ParseError
  | .unexpectedEnd line => .unexpectedToken token.text line token.col
  | e => e

/-- The configuration with more tokens behind its input. -/
def Configuration.followedBy (c : Configuration) (tokens : List Token) : Configuration :=
  ⟨c.stack, c.input ++ tokens⟩

/-- What a step leads to if more tokens are behind the input and the first is read as the end. -/
def StepResult.followedBy (token : Token) (rest : List Token) : StepResult → StepResult
  | .next c => .next (c.followedBy (token :: rest))
  | .accepted tree => .accepted tree
  | .failed e => .failed (e.before token)

theorem StepResult.outcome?_followedBy {token : Token} {rest : List Token} (r : StepResult) :
    (r.followedBy token rest).outcome? = r.outcome?.map (Except.mapError (·.before token)) := by
  cases r <;> rfl

namespace Table

variable {t : Table} {g : Grammar} {line : Nat} {token : Token} {front rest : List Token}

theorem column?_of_not_mem {name : String} (unknown : name ∉ t.grammar.terminals) :
    t.column? name = if name = endName then some t.endColumn else none := by
  simp only [column?, lastIndexOf?_eq_none_iff.2 unknown]

theorem column?_ne_endColumn {name : String} (known : name ∈ t.grammar.terminals) :
    t.column? name ≠ some t.endColumn := by
  intro column
  cases index : lastIndexOf? name t.grammar.terminals with
  | none => exact lastIndexOf?_eq_none_iff.1 index known
  | some i =>
      simp only [column?, index, Option.some.injEq] at column
      have inside := lastIndexOf?_lt index
      rw [column, endColumn] at inside
      exact Nat.lt_irrefl _ inside

theorem exists_first_unknown {tokens : List Token}
    (unknown : ∃ token ∈ tokens, token.kind.name ∉ g.terminals) :
    ∃ front token rest, tokens = front ++ token :: rest ∧
      (∀ x ∈ front, x.kind.name ∈ g.terminals) ∧ token.kind.name ∉ g.terminals := by
  obtain ⟨token, found⟩ := Option.isSome_iff_exists.1 <|
    (List.find?_isSome (p := fun x : Token => decide (x.kind.name ∉ g.terminals))).2
      (by simpa using unknown)
  obtain ⟨strange, front, rest, split, known⟩ := List.find?_eq_some_iff_append.1 found
  exact ⟨front, token, rest, split, by simpa using known, by simpa using strange⟩

section Canonical

variable (wf : g.WellFormed) (h : ofGrammar g = .ok t)
include wf h

theorem not_shift_of_unknown (unknown : token.kind.name ∉ g.terminals) {c : Configuration} {j : Nat}
    (input : c.input = token :: rest) : t.wanted? c ≠ some (.shift j) := by
  rw [← (ofGrammar_eq_ok h).1] at unknown
  intro wanted
  obtain ⟨col, column, shift⟩ := Option.bind_eq_some_iff.1 wanted
  rw [input, inputColumn?, column?_of_not_mem unknown] at column
  split at column
  · cases column
    exact action?_endColumn_ne_shift wf h shift
  · cases column

theorem input_of_runs (unknown : token.kind.name ∉ g.terminals) {c : Configuration}
    (run : t.Runs line (.start (front ++ token :: rest)) c) :
    ∃ taken ahead, front = taken ++ ahead ∧ c.input = ahead ++ token :: rest := by
  induction run with
  | refl => exact ⟨[], front, rfl, rfl⟩
  | tail _ step ih =>
      obtain ⟨taken, ahead, split, input⟩ := ih
      rcases step_eq_next_iff.1 step with
        ⟨j, first, wanted, input', -⟩ | ⟨p, below, n, tree, j, -, -, -, rfl⟩
      · cases ahead with
        | nil => exact absurd wanted (not_shift_of_unknown wf h unknown input)
        | cons x ahead =>
            obtain ⟨-, same⟩ := List.cons.inj (input'.symm.trans input)
            exact ⟨taken ++ [x], ahead, by simp [split], same⟩
      · exact ⟨taken, ahead, split, input⟩

theorem exists_unexpected_of_loop (unknown : token.kind.name ∉ g.terminals) {e : ParseError}
    (failed : t.loop line (.start (front ++ token :: rest)) = some (.error e)) :
    ∃ x ∈ front ++ [token], e = .unexpectedToken x.text line x.col := by
  obtain ⟨last, run, ended⟩ := loop_eq_some_iff.1 failed
  obtain ⟨taken, covers, -⟩ := covers_of_runs wf h run
  have error := eq_errorAt_of_failed wf h covers (StepResult.outcome?_eq_error_iff.1 ended)
  obtain ⟨_, ahead, rfl, input⟩ := input_of_runs wf h unknown run
  rw [input] at error
  cases ahead with
  | nil => exact ⟨token, by simp, error⟩
  | cons x ahead => exact ⟨x, by simp, error⟩

theorem eq_endName_of_loop (known : ∀ x ∈ front, x.kind.name ∈ g.terminals)
    (unknown : token.kind.name ∉ g.terminals) {tree : Tree}
    (ended : t.loop line (.start (front ++ token :: rest)) = some (.ok tree)) :
    token.kind.name = endName := by
  obtain ⟨last, run, ended⟩ := loop_eq_some_iff.1 ended
  obtain ⟨p, below, n, wanted, -⟩ :=
    step_eq_accepted_iff.1 (StepResult.outcome?_eq_ok_iff.1 ended)
  obtain ⟨taken, ahead, rfl, input⟩ := input_of_runs wf h unknown run
  obtain ⟨col, column, accept⟩ := Option.bind_eq_some_iff.1 wanted
  obtain ⟨item, -, -, -, rfl, -⟩ := item_of_accept wf h accept
  obtain ⟨rfl, -⟩ := ofGrammar_eq_ok h
  rw [input] at column
  cases ahead with
  | nil =>
      rw [List.nil_append, inputColumn?, column?_of_not_mem unknown] at column
      split at column
      · assumption
      · cases column
  | cons x ahead => exact absurd column (column?_ne_endColumn (known x (by simp)))

section Marked

variable (marked : t.inputColumn? (token :: rest) = some t.endColumn)
include marked

/-- A step does not tell a token that is read as the end from the end. -/
theorem step_followedBy (c : Configuration) :
    t.step line (c.followedBy (token :: rest)) = (t.step line c).followedBy token rest := by
  obtain ⟨stack, input⟩ := c
  have column : t.inputColumn? (input ++ token :: rest) = t.inputColumn? input := by
    cases input with
    | nil => exact marked
    | cons x input => rfl
  have error : errorAt line (input ++ token :: rest) = (errorAt line input).before token := by
    cases input <;> rfl
  simp only [step, Configuration.followedBy, Configuration.top, column]
  cases wanted : (t.inputColumn? input).bind (t.action? (Configuration.topOf stack)) with
  | none => exact congrArg StepResult.failed error
  | some action =>
      cases action with
      | shift j =>
          cases input with
          | nil =>
              obtain ⟨col, atEnd, shift⟩ := Option.bind_eq_some_iff.1 wanted
              cases atEnd
              exact absurd shift (action?_endColumn_ne_shift wf h)
          | cons x input => rfl
      | reduce p =>
          cases reduced : t.reduce line p stack with
          | error f => simp only [reduced]; rfl
          | ok result =>
              obtain ⟨below, n, tree⟩ := result
              simp only [reduced]
              cases t.goto? (Configuration.topOf below) n <;> rfl
      | accept p => cases reduced : t.reduce line p stack <;> simp only [reduced] <;> rfl

theorem runs_followedBy_iff {c d : Configuration} :
    t.Runs line (c.followedBy (token :: rest)) d ↔
      ∃ last, t.Runs line c last ∧ d = last.followedBy (token :: rest) := by
  constructor
  · intro run
    induction run with
    | refl => exact ⟨c, .refl, rfl⟩
    | tail _ step ih =>
        obtain ⟨last, run, rfl⟩ := ih
        rw [step_followedBy wf h marked] at step
        cases stepped : t.step line last with
        | next e =>
            rw [stepped] at step
            cases step
            exact ⟨e, run.tail stepped, rfl⟩
        | accepted tree => simp [stepped, StepResult.followedBy] at step
        | failed e => simp [stepped, StepResult.followedBy] at step
  · rintro ⟨last, run, rfl⟩
    induction run with
    | refl => exact .refl
    | tail _ step ih => exact ih.tail (by rw [step_followedBy wf h marked, step]; rfl)

theorem loop_followedBy (c : Configuration) : t.loop line (c.followedBy (token :: rest)) =
    (t.loop line c).map (Except.mapError (·.before token)) := by
  refine Option.ext fun result => ?_
  simp only [loop_eq_some_iff, Option.map_eq_some_iff, runs_followedBy_iff wf h marked]
  constructor
  · rintro ⟨_, ⟨last, run, rfl⟩, ended⟩
    rw [step_followedBy wf h marked, StepResult.outcome?_followedBy,
      Option.map_eq_some_iff] at ended
    obtain ⟨earlier, ended, rfl⟩ := ended
    exact ⟨earlier, ⟨last, run, ended⟩, rfl⟩
  · rintro ⟨earlier, ⟨last, run, ended⟩, rfl⟩
    refine ⟨_, ⟨last, run, rfl⟩, ?_⟩
    rw [step_followedBy wf h marked, StepResult.outcome?_followedBy, ended]
    rfl

end Marked

/-- A line is parsed up to the first token that is read as the end, as if nothing came there. -/
theorem parse_followedBy (unknown : token.kind.name ∉ g.terminals)
    (named : token.kind.name = endName) : t.parse ⟨line, front ++ token :: rest⟩ =
      (t.parse ⟨line, front⟩).mapError (·.before token) := by
  have marked : t.inputColumn? (token :: rest) = some t.endColumn := by
    rw [← (ofGrammar_eq_ok h).1] at unknown
    rw [inputColumn?, column?_of_not_mem unknown, if_pos named]
  have looped : t.loop line (.start (front ++ token :: rest)) =
      (t.loop line (.start front)).map (Except.mapError (·.before token)) :=
    loop_followedBy wf h marked (.start front)
  unfold parse
  rw [looped]
  cases t.loop line (.start front) <;> rfl

theorem exists_derives_of_parse {tokens : List Token} {tree : Tree}
    (parsed : t.parse ⟨line, tokens⟩ = .ok tree) : ∃ front rest, tokens = front ++ rest ∧
      (Tree.reading g line).Derives g [.nonterminal g.goal] front [tree] := by
  have derives : ∀ front : List Token, (∀ x ∈ front, x.kind.name ∈ g.terminals) →
      t.parse ⟨line, front⟩ = .ok tree →
        (Tree.reading g line).Derives g [.nonterminal g.goal] front [tree] := by
    intro front known parsed
    refine derives_of_parse wf h ?_ parsed
    intro x member named
    rw [(ofGrammar_eq_ok h).1, ← named]
    exact known x member
  by_cases known : ∀ x ∈ tokens, x.kind.name ∈ g.terminals
  · exact ⟨tokens, [], by simp, derives tokens known parsed⟩
  · obtain ⟨front, token, rest, rfl, known, unknown⟩ := exists_first_unknown (by simpa using known)
    have named := eq_endName_of_loop wf h known unknown (parse_eq_ok_iff_loop.1 parsed)
    rw [parse_followedBy wf h unknown named] at parsed
    cases before : t.parse ⟨line, front⟩ with
    | error e => simp [before, Except.mapError] at parsed
    | ok value =>
        rw [before] at parsed
        cases parsed
        exact ⟨front, token :: rest, rfl, derives front known before⟩

end Canonical

/-- What becomes of a line with a token of an unknown kind is settled by its front up to the first
    of them. -/
theorem parse_unknown {goal : String} {rules : List Rule} {nonterminals terminals : List String}
    (ofRules : Grammar.ofRules goal rules nonterminals terminals = .ok g)
    (ofGrammar : Table.ofGrammar g = .ok t) (line : Line)
    (unknown : ∃ token ∈ line.tokens, token.kind.name ∉ g.terminals) :
    ∃ front token rest, line.tokens = front ++ token :: rest ∧
      (∀ x ∈ front, x.kind.name ∈ g.terminals) ∧ token.kind.name ∉ g.terminals ∧
      (token.kind.name ≠ endName → ∀ tree, t.parse line ≠ .ok tree) ∧
      (token.kind.name = endName →
        t.parse line = (t.parse ⟨line.number, front⟩).mapError (·.before token)) ∧
      ∀ e, t.parse line = .error e →
        (∃ x ∈ front ++ [token], e = .unexpectedToken x.text line.number x.col) ∨
          e = .fault .endlessParse ∧ ¬g.Unblocked := by
  have wf := Grammar.ofRules_wellFormed ofRules
  obtain ⟨n, tokens⟩ := line
  obtain ⟨front, token, rest, rfl, known, unknown⟩ := exists_first_unknown unknown
  refine ⟨front, token, rest, rfl, known, unknown, ?_, parse_followedBy wf ofGrammar unknown, ?_⟩
  · intro other tree parsed
    exact other (eq_endName_of_loop wf ofGrammar known unknown (parse_eq_ok_iff_loop.1 parsed))
  · intro e failed
    rcases parse_eq_error_iff_loop.1 failed with looped | ⟨endless, rfl⟩
    · exact .inl (exists_unexpected_of_loop wf ofGrammar unknown looped)
    · refine .inr ⟨rfl, fun unblocked => ?_⟩
      have bottom : Situation.Covers (Tree.reading g n) g
          (Configuration.start (front ++ token :: rest)).situation.stack [] := .nil
      obtain ⟨last, result, run, ended⟩ := exists_outcome wf ofGrammar unblocked bottom
      cases endless.symm.trans (loop_of_runs run ended)

end Table

namespace Grammar

def wordRules : List Rule := [⟨"goal", ["word"]⟩]

/-- A line is a single word. -/
def word : Grammar := ⟨["goal"], ["word"], [⟨0, [.terminal 0]⟩], 0⟩

def wordTable : Table where
  grammar := word
  actions := [[some (.shift 1), none], [none, some (.accept 0)]]
  gotos := [[none], [none]]

theorem ofRules_word : ofRules "goal" wordRules ["goal"] ["word"] = .ok word := by decide +kernel

theorem ofGrammar_word : Table.ofGrammar word = .ok wordTable := by decide +kernel

def bracketLine : Line := ⟨1, [⟨1, "a", .word⟩, ⟨3, "(", .symbol '('⟩, ⟨5, "b", .word⟩]⟩

def dollarLine : Line := ⟨1, [⟨1, "a", .word⟩, ⟨3, "$", .symbol '$'⟩, ⟨5, "b", .word⟩]⟩

end Grammar

namespace Table

open Grammar in
theorem parse_unknown_bracket : ∃ x ∈ bracketLine.tokens,
    wordTable.parse bracketLine = .error (.unexpectedToken x.text 1 x.col) := by
  have unmarked : ∀ token ∈ bracketLine.tokens, token.kind.name ≠ endName := by decide
  have unblocked : word.Unblocked := by decide +kernel
  obtain ⟨front, token, rest, split, -, -, refused, -, errors⟩ :=
    parse_unknown ofRules_word ofGrammar_word bracketLine (by decide)
  cases parsed : wordTable.parse bracketLine with
  | ok tree => exact absurd parsed (refused (unmarked token (by simp [split])) tree)
  | error e =>
      rcases errors e parsed with ⟨x, member, rfl⟩ | ⟨-, blocked⟩
      · have inside : front ++ [token] ⊆ bracketLine.tokens := by simp [split]
        exact ⟨x, inside member, rfl⟩
      · exact absurd unblocked blocked

open Grammar in
/-- A line of a word, a dollar sign and a word is parsed as its first word. -/
theorem parse_dollar :
    ofRules "goal" wordRules ["goal"] ["word"] = .ok word ∧
    Table.ofGrammar word = .ok wordTable ∧
    (∃ token ∈ dollarLine.tokens, token.kind.name ∉ word.terminals) ∧
    wordTable.parse dollarLine = .ok (.node "goal" 1 [.leaf 1 ⟨1, "a", .word⟩]) := by
  refine ⟨ofRules_word, ofGrammar_word, by decide, ?_⟩
  exact parse_eq_ok_iff_loop.2 ((loop_of_eq_next rfl).trans (loop_of_eq_accepted rfl))

end Table

end Assembler
