import Assembler.Proofs.Parsing.Termination
import Assembler.Proofs.Parsing.Viable

/-! # Where a parse fails

A run depends on the terminals that it reads and looks at, and on nothing behind them. So where a
parse is stuck, it is stuck on every word with the same terminals up to there, and none of those is
a sentence. What was taken before is the beginning of a sentence. Together this puts the error at
the first token that no sentence has there.
-/

namespace Assembler

namespace Situation

variable {β α β' α' : Type} {r : Reading β α} {r' : Reading β' α'} {g : Grammar} {t : Table}

/-- Situations with the same states and the same terminals in front of given rests. -/
structure Alike (r : Reading β α) (r' : Reading β' α') (rest : List β) (rest' : List β')
    (c : Situation β α) (c' : Situation β' α') : Prop where
  states : c.stack.map (·.1) = c'.stack.map (·.1)
  inputs : ∃ front front', c.input = front ++ rest ∧ c'.input = front' ++ rest' ∧
    front.map r.terminal = front'.map r'.terminal

section Rest

variable {rest : List β} {rest' : List β'} (ahead : r.lookahead rest = r'.lookahead rest')
include ahead

theorem Alike.action?_eq {c : Situation β α} {c' : Situation β' α'}
    (alike : Alike r r' rest rest' c c') : action? t r c = action? t r' c' := by
  obtain ⟨front, front', input, input', same⟩ := alike.inputs
  have sees : r.lookahead c.input = r'.lookahead c'.input := by
    rw [input, input']
    cases front <;> cases front' <;> simp_all [Reading.lookahead]
  rw [action?, action?, sees, topOf_eq_of_states alike.states]

/-- A step that leaves the rest alone is taken in any situation like this one. -/
theorem Alike.step {c d : Situation β α} {c' : Situation β' α'}
    (alike : Alike r r' rest rest' c c') (step : Step t r c d) (left : rest <:+ d.input) :
    ∃ d', Step t r' c' d' ∧ Alike r r' rest rest' d d' := by
  have action := alike.action?_eq (t := t) ahead
  obtain ⟨states, front, front', input, input', same⟩ := alike
  obtain ⟨stack', whole'⟩ := c'
  obtain rfl : whole' = front' ++ rest' := input'
  cases step with
  | @shift stack b behind j wanted =>
      cases front with
      | nil =>
          obtain rfl : b :: behind = rest := input
          have length := left.length_le
          simp at length
      | cons x front =>
          obtain ⟨rfl, rfl⟩ := List.cons.inj input
          obtain ⟨b', others, rfl, -, equal⟩ := List.map_eq_cons_iff.1 same.symm
          refine ⟨_, .shift (action.symm.trans wanted), ?_, front, others, rfl, rfl, equal.symm⟩
          simpa using states
  | @reduce frames stack whole p j production wanted rule count goto =>
      rw [List.map_append] at states
      obtain ⟨frames', below, rfl, popped, kept⟩ := List.map_eq_append_iff.1 states.symm
      have count' : frames'.length = production.rhs.length := by
        rw [← count, ← List.length_map (f := (·.1)), popped, List.length_map]
      rw [topOf_eq_of_states kept.symm] at goto
      refine ⟨_, .reduce (action.symm.trans wanted) rule count' goto, ?_, front, front', input, rfl,
        same⟩
      simpa using kept.symm

theorem Alike.reaches {c d : Situation β α} {c' : Situation β' α'}
    (alike : Alike r r' rest rest' c c') (run : Reaches t r c d) (left : rest <:+ d.input) :
    ∃ d', Reaches t r' c' d' ∧ Alike r r' rest rest' d d' := by
  induction run with
  | refl => exact ⟨c', .refl, alike⟩
  | tail _ step ih =>
      obtain ⟨d', run', between⟩ := ih (left.trans step.input_suffix)
      obtain ⟨e', step', alike'⟩ := between.step ahead step left
      exact ⟨e', run'.tail step', alike'⟩

end Rest

theorem Step.exists_action {c d : Situation β α} (step : Step t r c d) :
    ∃ a, action? t r c = some a := by
  cases step with
  | shift wanted => exact ⟨_, wanted⟩
  | reduce wanted _ _ _ => exact ⟨_, wanted⟩

theorem not_derives_of_stuck (wf : g.WellFormed) (h : Table.ofGrammar g = .ok t)
    {taken rest : List β} {stack : List (Nat × α)}
    (run : Reaches t r ⟨[], taken ++ rest⟩ ⟨stack, rest⟩) (stuck : action? t r ⟨stack, rest⟩ = none)
    {taken' rest' : List β'} (same : taken.map r.terminal = taken'.map r'.terminal)
    (ahead : r.lookahead rest = r'.lookahead rest') (values : List α') :
    ¬r'.Derives g [.nonterminal g.goal] (taken' ++ rest') values := by
  intro derives
  obtain ⟨value, rfl⟩ := List.length_eq_one_iff.1 derives.length_eq
  obtain ⟨last, accepted, accepts⟩ := derives.accepts wf h
  have start : Alike r r' rest rest' ⟨[], taken ++ rest⟩ ⟨[], taken' ++ rest'⟩ :=
    ⟨rfl, taken, taken', rfl, rfl, same⟩
  obtain ⟨d, reached, alike⟩ := start.reaches ahead run List.suffix_rfl
  have stuck' : action? t r' d = none := (alike.action?_eq ahead).symm.trans stuck
  have unique : Relator.RightUnique (Step t r') := fun _ _ _ => Step.unique
  have ended : last = d := by
    rcases accepted.total_of_right_unique unique reached with onward | onward
    · rcases onward.cases_head with same | ⟨_, step, -⟩
      · exact same
      · exact absurd step accepts.no_step
    · rcases onward.cases_head with same | ⟨_, step, -⟩
      · exact same.symm
      · obtain ⟨a, wanted⟩ := step.exists_action
        cases stuck'.symm.trans wanted
  obtain ⟨wanted, -, -⟩ := accepts
  rw [ended] at wanted
  cases stuck'.symm.trans wanted

end Situation

namespace Grammar

variable {g : Grammar} {line : Nat}

theorem declared_goal (wf : g.WellFormed) : ∀ s ∈ [Symbol.nonterminal g.goal], g.Declared s := by
  simpa [Declared] using wf.goal_lt

theorem map_terminal_eq (line : Nat) {tokens : List Token} {word : List Nat}
    (declared : ∀ i ∈ word, g.Declared (.terminal i))
    (names : tokens.map (·.kind.name) = word.map fun i => g.name (.terminal i)) :
    tokens.map (Tree.reading g line).terminal = word := by
  induction tokens generalizing word with
  | nil => exact (List.map_eq_nil_iff.1 names.symm).symm
  | cons token tokens ih =>
      obtain ⟨i, word, rfl, same, rest⟩ := List.map_eq_cons_iff.1 names.symm
      have first : (Tree.reading g line).terminal token = i := by
        have index := lastIndexOf?_name (declared i List.mem_cons_self)
        rw [same] at index
        simp [Tree.reading, index]
      rw [List.map_cons, first, ih (fun j member => declared j (List.mem_cons_of_mem _ member))
        rest.symm]

theorem map_name_eq {tokens : List Token}
    (declared : ∀ token ∈ tokens, g.Declared (.terminal ((Tree.reading g line).terminal token))) :
    (tokens.map (Tree.reading g line).terminal).map (fun i => g.name (.terminal i)) =
      tokens.map (·.kind.name) := by
  rw [List.map_map]
  exact List.map_congr_left fun token member => name_terminal (declared token member)

theorem sentence_of_derives (wf : g.WellFormed) {tokens : List Token} {trees : List Tree}
    (derives : (Tree.reading g line).Derives g [.nonterminal g.goal] tokens trees) :
    g.Sentence (tokens.map (·.kind.name)) := by
  obtain ⟨values, bare⟩ := derives.transfer Derivation.reading
    (tokens.map (Tree.reading g line).terminal) (by simp [Derivation.reading])
  exact ⟨_, values, bare, (map_name_eq (derives.declared wf (declared_goal wf))).symm⟩

theorem viable_of_covers (wf : g.WellFormed) (productive : g.Productive)
    {stack : List (Nat × Tree)} {taken : List Token}
    (covers : Situation.Covers (Tree.reading g line) g stack taken) :
    g.Viable (taken.map (·.kind.name)) := by
  obtain ⟨stack', -, covers'⟩ := covers.transfer Derivation.reading
    (taken.map (Tree.reading g line).terminal) (by simp [Derivation.reading])
  obtain ⟨rest, values, derives⟩ := covers'.exists_derives wf productive
  have declared := derives.declared wf (declared_goal wf)
  refine ⟨rest.map fun i => g.name (.terminal i), _, values, derives, ?_⟩
  rw [List.map_append, map_name_eq fun token member => ?_]
  exact declared _ (List.mem_append_left _ (List.mem_map_of_mem member))

theorem Productive.unblocked (wf : g.WellFormed) (productive : g.Productive) : g.Unblocked := by
  intro n inside empty
  obtain ⟨word, values, derives⟩ := productive n inside
  have first := derives.first wf
  have nothing : (FirstSets.ofGrammar g).sequence [.nonterminal n] = .empty := by
    simp [FirstSets.sequence, FirstSets.symbol, empty, FirstSet.empty, FirstSet.seq]
  rw [nothing] at first
  cases word with
  | nil => cases first.1 rfl
  | cons b rest => exact absurd (first.2 b rest rfl) SortedSet.not_mem_empty

end Grammar

namespace Table

variable {t : Table} {g : Grammar}

section Canonical

variable {line : Nat} (wf : g.WellFormed) (h : ofGrammar g = .ok t)
include wf h

theorem not_derives_of_failed {c : Configuration} {taken : List Token} {e : ParseError} {col : Nat}
    (run : t.Runs line (.start (taken ++ c.input)) c)
    (covers : Situation.Covers (Tree.reading g line) g c.situation.stack taken)
    (failed : t.step line c = .failed e) (column : t.inputColumn? c.input = some col)
    (rest : List Nat)
    (ahead : (Tree.reading g line).lookahead c.input = Derivation.reading.lookahead rest)
    (values : List Derivation) : ¬Derivation.reading.Derives g [.nonterminal g.goal]
      (taken.map (Tree.reading g line).terminal ++ rest) values := by
  have nothing := bind_action?_of_failed wf h covers failed
  rw [bind_action?_eq (sighted_of_column line column)] at nothing
  have reached := reaches_of_runs run
  obtain ⟨rfl, -⟩ := ofGrammar_eq_ok h
  exact Situation.not_derives_of_stuck wf h reached nothing (by simp [Derivation.reading]) ahead
    values

theorem not_viable_of_failed {c : Configuration} {taken after : List Token} {token : Token}
    {e : ParseError} (run : t.Runs line (.start (taken ++ c.input)) c)
    (covers : Situation.Covers (Tree.reading g line) g c.situation.stack taken)
    (failed : t.step line c = .failed e) (input : c.input = token :: after) :
    ¬g.Viable ((taken ++ [token]).map (·.kind.name)) := by
  rintro ⟨rest, word, values, derives, names⟩
  have declared := derives.declared wf (Grammar.declared_goal wf)
  obtain ⟨front, behind, rfl, same, -⟩ := List.map_eq_append_iff.1 names.symm
  have spelled := Grammar.map_terminal_eq line
    (fun i member => declared i (List.mem_append_left _ member)) same.symm
  have known : g.Declared (.terminal ((Tree.reading g line).terminal token)) := by
    refine declared ((Tree.reading g line).terminal token) (List.mem_append_left _ ?_)
    rw [← spelled]
    exact List.mem_map_of_mem (List.mem_append_right _ List.mem_cons_self)
  have column : ∃ col, t.inputColumn? c.input = some col := by
    have index := Grammar.lastIndexOf?_name known
    rw [Grammar.name_terminal known] at index
    rw [input, inputColumn?, column?, (ofGrammar_eq_ok h).1, index]
    exact ⟨_, rfl⟩
  obtain ⟨col, column⟩ := column
  refine not_derives_of_failed wf h run covers failed column
    ((Tree.reading g line).terminal token :: behind) (by rw [input]; rfl) values ?_
  rw [← spelled, List.map_append] at derives
  simpa using derives

theorem not_sentence_of_failed {c : Configuration} {taken : List Token} {e : ParseError}
    (run : t.Runs line (.start (taken ++ c.input)) c)
    (covers : Situation.Covers (Tree.reading g line) g c.situation.stack taken)
    (failed : t.step line c = .failed e) (input : c.input = []) :
    ¬g.Sentence (taken.map (·.kind.name)) := by
  rintro ⟨word, values, derives, names⟩
  have declared := derives.declared wf (Grammar.declared_goal wf)
  have spelled := Grammar.map_terminal_eq line declared names
  refine not_derives_of_failed wf h run covers failed (by rw [input]; rfl) []
    (by rw [input]; rfl) values ?_
  rwa [List.append_nil, spelled]

/-- A line is a sentence and has a tree, or the parser fails behind tokens that begin a sentence and
    before one that does not continue them. -/
theorem parse_cases (productive : g.Productive) (line : Line) (unmarked : t.Unmarked line.tokens) :
    (∃ tree, t.parse line = .ok tree ∧ g.Sentence (line.tokens.map (·.kind.name))) ∨
    ∃ k ≤ line.tokens.length, t.parse line = .error (errorAt line.number (line.tokens.drop k)) ∧
      g.Viable ((line.tokens.map (·.kind.name)).take k) ∧
      (k < line.tokens.length → ¬g.Viable ((line.tokens.map (·.kind.name)).take (k + 1))) ∧
      (k = line.tokens.length → ¬g.Sentence (line.tokens.map (·.kind.name))) := by
  have bottom : Situation.Covers (Tree.reading g line.number) g
      (Configuration.start line.tokens).situation.stack [] := .nil
  obtain ⟨last, result, run, ended⟩ := exists_outcome wf h (productive.unblocked wf) bottom
  have looped := loop_of_runs run ended
  have parsed : t.parse line = result := by rw [parse, looped]
  cases result with
  | ok tree =>
      have derives := derives_of_parse wf h unmarked parsed
      exact .inl ⟨tree, parsed, Grammar.sentence_of_derives wf derives⟩
  | error e =>
      have stepped := StepResult.outcome?_eq_error_iff.1 ended
      obtain ⟨taken, covers, split⟩ := covers_of_runs wf h run
      have split : line.tokens = taken ++ last.input := split.symm
      rw [split] at run
      refine .inr ⟨taken.length, by simp [split], ?_, ?_, ?_, ?_⟩
      · rw [parsed, eq_errorAt_of_failed wf h covers stepped, split, List.drop_left]
      · rw [← List.map_take, split, List.take_left]
        exact Grammar.viable_of_covers wf productive covers
      · intro more
        obtain ⟨token, after, input⟩ := List.exists_cons_of_length_pos (l := last.input)
          (by simpa [split] using more)
        have one : line.tokens.take (taken.length + 1) = taken ++ [token] := by
          simp [split, input, List.take_append]
        rw [← List.map_take, one]
        exact not_viable_of_failed wf h run covers stepped input
      · intro all
        have input : last.input = [] := by simpa [split] using all
        rw [split, input, List.append_nil]
        exact not_sentence_of_failed wf h run covers stepped input

theorem parse_eq_unexpectedToken_iff (productive : g.Productive) {line : Line}
    (unmarked : t.Unmarked line.tokens) {text : String} {n col : Nat} :
    t.parse line = .error (.unexpectedToken text n col) ↔ n = line.number ∧
      ∃ (k : Nat) (token : Token), line.tokens[k]? = some token ∧ token.text = text ∧
        token.col = col ∧ g.Viable ((line.tokens.map (·.kind.name)).take k) ∧
        ¬g.Viable ((line.tokens.map (·.kind.name)).take (k + 1)) := by
  constructor
  · intro failed
    rcases parse_cases wf h productive line unmarked with
      ⟨tree, parsed, -⟩ | ⟨k, -, parsed, viable, stops, -⟩
    · cases failed.symm.trans parsed
    · have error := Except.error.inj (failed.symm.trans parsed)
      cases rest : line.tokens.drop k with
      | nil =>
          rw [rest] at error
          cases error
      | cons token after =>
          rw [rest] at error
          cases error
          have found : line.tokens[k]? = some token := by
            rw [← List.head?_drop, rest]
            rfl
          have inside := (List.getElem?_eq_some_iff.1 found).1
          exact ⟨rfl, k, token, found, rfl, rfl, viable, stops inside⟩
  · rintro ⟨rfl, k, token, found, rfl, rfl, viable, stops⟩
    obtain ⟨inside, here⟩ := List.getElem?_eq_some_iff.1 found
    rcases parse_cases wf h productive line unmarked with
      ⟨tree, -, sentence⟩ | ⟨m, bound, parsed, viable', stops', -⟩
    · have all := Grammar.le_of_viable (by rw [List.take_length]; exact sentence.viable) stops
      rw [List.length_map] at all
      omega
    · have before := Grammar.le_of_viable viable' stops
      have behind := Grammar.le_of_viable viable (stops' (by omega))
      obtain rfl : k = m := by omega
      rw [parsed, List.drop_eq_getElem_cons inside, here]
      rfl

theorem parse_eq_unexpectedEnd_iff (productive : g.Productive) {line : Line}
    (unmarked : t.Unmarked line.tokens) {n : Nat} :
    t.parse line = .error (.unexpectedEnd n) ↔ n = line.number ∧
      g.Viable (line.tokens.map (·.kind.name)) ∧ ¬g.Sentence (line.tokens.map (·.kind.name)) := by
  constructor
  · intro failed
    rcases parse_cases wf h productive line unmarked with
      ⟨tree, parsed, -⟩ | ⟨k, bound, parsed, viable, -, incomplete⟩
    · cases failed.symm.trans parsed
    · have error := Except.error.inj (failed.symm.trans parsed)
      cases rest : line.tokens.drop k with
      | cons token after =>
          rw [rest] at error
          cases error
      | nil =>
          rw [rest] at error
          cases error
          have whole : k = line.tokens.length := by
            have length := List.drop_eq_nil_iff.1 rest
            omega
          rw [List.take_of_length_le (by simp [whole])] at viable
          exact ⟨rfl, viable, incomplete whole⟩
  · rintro ⟨rfl, viable, incomplete⟩
    rcases parse_cases wf h productive line unmarked with
      ⟨tree, -, sentence⟩ | ⟨k, bound, parsed, -, stops, -⟩
    · exact absurd sentence incomplete
    · have whole : k = line.tokens.length := by
        by_contra part
        have all := Grammar.le_of_viable (by rw [List.take_length]; exact viable)
          (stops (by omega))
        rw [List.length_map] at all
        omega
      rw [parsed, whole, List.drop_length]
      rfl

end Canonical

/-- The parser points to the first token that no sentence has behind the tokens before it, or to the
    end of a line that only begins a sentence. -/
theorem parse_error_position {goal : String} {rules : List Rule}
    {nonterminals terminals : List String}
    (ofRules : Grammar.ofRules goal rules nonterminals terminals = .ok g)
    (ofGrammar : Table.ofGrammar g = .ok t) (productive : g.Productive) (line : Line)
    (unmarked : ∀ token ∈ line.tokens, token.kind.name = endName → endName ∈ g.terminals) :
    (∀ text n col, t.parse line = .error (.unexpectedToken text n col) ↔ n = line.number ∧
      ∃ (k : Nat) (token : Token), line.tokens[k]? = some token ∧ token.text = text ∧
        token.col = col ∧ g.Viable ((line.tokens.map (·.kind.name)).take k) ∧
        ¬g.Viable ((line.tokens.map (·.kind.name)).take (k + 1))) ∧
    ∀ n, t.parse line = .error (.unexpectedEnd n) ↔ n = line.number ∧
      g.Viable (line.tokens.map (·.kind.name)) ∧ ¬g.Sentence (line.tokens.map (·.kind.name)) := by
  have wf := Grammar.ofRules_wellFormed ofRules
  have known : t.Unmarked line.tokens := by rwa [Unmarked, (ofGrammar_eq_ok ofGrammar).1]
  exact ⟨fun _ _ _ => parse_eq_unexpectedToken_iff wf ofGrammar productive known,
    fun _ => parse_eq_unexpectedEnd_iff wf ofGrammar productive known⟩

end Table

namespace Grammar

theorem productive_parens : parens.Productive := by
  have goal : parens.productions[0]? = some ⟨0, [.nonterminal 1]⟩ := rfl
  have rule : parens.productions[2]? = some ⟨1, []⟩ := rfl
  have empty := Reading.Derives.node (r := Derivation.reading) rule .nil .nil
  intro n inside
  have inside : n < 2 := inside
  obtain rfl | rfl : n = 0 ∨ n = 1 := by omega
  · exact ⟨_, _, Reading.Derives.node goal empty .nil⟩
  · exact ⟨_, _, empty⟩

/-- A parenthesis too many. -/
def unbalancedLine : Line :=
  ⟨1, [⟨1, "(", .symbol '('⟩, ⟨2, ")", .symbol ')'⟩, ⟨3, ")", .symbol ')'⟩]⟩

end Grammar

open Grammar in
theorem Table.parse_error_position_parens :
    parensTable.parse unbalancedLine = .error (.unexpectedToken ")" 1 3) ∧
    parens.Viable ["(", ")"] ∧ ¬parens.Viable ["(", ")", ")"] := by
  have looped : parensTable.loop 1 (.start unbalancedLine.tokens) =
      some (.error (.unexpectedToken ")" 1 3)) :=
    loop_of_runs (.head rfl <| .head rfl <| .head rfl .refl) rfl
  have parsed : parensTable.parse unbalancedLine = .error (.unexpectedToken ")" 1 3) := by
    rw [parse, show unbalancedLine.number = 1 from rfl, looped]
  obtain ⟨-, k, token, found, -, col, viable, stops⟩ := (parse_error_position ofRules_parens
    ofGrammar_parens productive_parens unbalancedLine (by decide)).1 _ _ _ |>.1 parsed
  -- only the third token starts at that column
  rcases k with _ | _ | _ | k
  · cases found
    cases col
  · cases found
    cases col
  · exact ⟨parsed, viable, stops⟩
  · cases found

end Assembler
