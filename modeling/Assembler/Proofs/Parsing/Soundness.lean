import Assembler.Proofs.Parsing.Run

/-! # Every parse is a derivation

The stack stands for the input taken so far: each frame lies behind an edge of the automaton, and
its value is derived by the symbol of the edge from a stretch of the input. A reduction walks back
over the edges that the cursor of a complete item has moved past, and finds there the symbols of its
production. The goal is expected by no item, so a production of it is complete only over the whole
stack.
-/

namespace Assembler

namespace Situation

variable {β α : Type} {r : Reading β α} {g : Grammar} {t : Table}

/-- A stack that stands for the input taken. -/
inductive Covers (r : Reading β α) (g : Grammar) : List (Nat × α) → List β → Prop where
  | nil : Covers r g [] []
  | cons {stack : List (Nat × α)} {taken word : List β} {x : Symbol} {j : Nat} {value : α}
      (below : Covers r g stack taken) (edge : g.Edge (topOf stack) x j)
      (derives : r.Derives g [x] word [value]) : Covers r g ((j, value) :: stack) (taken ++ word)

/-- The symbols before the cursor of an item on top are what the topmost frames stand for. -/
theorem Covers.pop (wf : g.WellFormed) {stack : List (Nat × α)} {taken : List β}
    (h : Covers r g stack taken) {item : Item} (member : item ∈ g.itemsAt (topOf stack)) :
    ∃ frames below before word, stack = frames ++ below ∧ taken = before ++ word ∧
      frames.length = item.cursor ∧ Covers r g below before ∧
      r.Derives g ((g.rhs item.production).take item.cursor) word (frames.reverse.map (·.2)) ∧
      { item with cursor := 0 } ∈ g.itemsAt (topOf below) := by
  induction cursor : item.cursor generalizing stack taken item with
  | zero =>
      refine ⟨[], stack, taken, [], rfl, by simp, rfl, h, ?_, ?_⟩
      · simpa using Reading.Derives.nil
      · rw [← cursor]
        exact member
  | succ k ih =>
      cases h with
      | nil =>
          have start := Grammar.cursor_of_mem_itemsAt_zero wf member
          omega
      | @cons stack taken last x j value below edge derives =>
          obtain ⟨previous, found, next, rfl⟩ := edge.retreat member cursor
          simp only [Item.advance, Nat.add_right_cancel_iff] at cursor
          obtain ⟨frames, rest, before, word, rfl, rfl, count, covers, spelled, start⟩ :=
            ih below found cursor
          refine ⟨(j, value) :: frames, rest, before, word ++ last, rfl, by simp, by simp [count],
            covers, ?_, start⟩
          rw [Item.next?, cursor] at next
          have whole := spelled.append derives
          simpa [Item.advance, List.take_add_one, next] using whole

theorem Covers.popComplete (wf : g.WellFormed) {frames stack : List (Nat × α)} {taken : List β}
    {item : Item} {production : Production} (covers : Covers r g (frames ++ stack) taken)
    (member : item ∈ g.itemsAt (topOf (frames ++ stack))) (complete : item.isComplete g = true)
    (rule : g.productions[item.production]? = some production)
    (count : frames.length = production.rhs.length) :
    ∃ before word, taken = before ++ word ∧ Covers r g stack before ∧
      r.Derives g production.rhs word (frames.reverse.map (·.2)) ∧
      { item with cursor := 0 } ∈ g.itemsAt (topOf stack) := by
  have cursor : item.cursor = production.rhs.length := by
    rw [((Grammar.closed_itemsAt wf _).of item member).cursor_eq complete, Grammar.rhs_eq rule]
  obtain ⟨popped, below, before, word, same, split, length, rest, spelled, start⟩ :=
    covers.pop wf member
  obtain ⟨rfl, rfl⟩ := List.append_inj same (by omega)
  rw [cursor, Grammar.rhs_eq rule, List.take_length] at spelled
  exact ⟨before, word, split, rest, spelled, start⟩

theorem Covers.eq_nil_of_goal (wf : g.WellFormed) {stack : List (Nat × α)} {taken : List β}
    (covers : Covers r g stack taken) {item : Item} (member : item ∈ g.itemsAt (topOf stack))
    (cursor : item.cursor = 0) (goal : item.production ∈ g.productionsOf g.goal) :
    stack = [] ∧ taken = [] := by
  cases covers with
  | nil => exact ⟨rfl, rfl⟩
  | cons _ edge _ =>
      obtain ⟨other, -, expanded⟩ := edge.expected_of_cursor_zero member cursor
      exact absurd goal (Grammar.not_goal_of_mem_expand wf expanded)

section Canonical

variable (wf : g.WellFormed) (h : Table.ofGrammar g = .ok t)
include wf h

/-- A step keeps the stack and the input together the whole input. -/
theorem Covers.step {c d : Situation β α} {taken : List β} (covers : Covers r g c.stack taken)
    (step : Step t r c d) :
    ∃ taken', Covers r g d.stack taken' ∧ taken' ++ d.input = taken ++ c.input := by
  obtain ⟨rfl, -⟩ := Table.ofGrammar_eq_ok h
  cases step with
  | @shift stack b rest j wanted =>
      rcases (Table.action?_eq_some_iff wf h).1 wanted with ⟨item, -, -, -, clash⟩ | ⟨k, edge, same⟩
      · exact absurd clash.symm (Table.completion_ne_shift _ _ _)
      · cases same
        exact ⟨taken ++ [b], .cons covers edge (.leaf rfl .nil), by simp⟩
  | @reduce frames stack input p j production wanted rule count goto =>
      obtain ⟨item, member, complete, rfl, -⟩ := Table.item_of_reduce wf h wanted
      obtain ⟨before, word, rfl, rest, spelled, -⟩ :=
        covers.popComplete wf member complete rule count
      have edge := (Table.goto?_eq_some_iff wf h).1 goto
      have derives := Reading.Derives.node rule spelled .nil
      exact ⟨_, .cons rest edge derives, by simp⟩

theorem Covers.accepts {c : Situation β α} {taken : List β} {value : α}
    (covers : Covers r g c.stack taken) (accepts : Accepts t r c value)
    (known : ∀ b ∈ c.input.head?, r.terminal b ≠ g.terminals.length) :
    c.input = [] ∧ r.Derives g [.nonterminal g.goal] taken [value] := by
  obtain ⟨rfl, -⟩ := Table.ofGrammar_eq_ok h
  obtain @⟨frames, stack, input, p, production, wanted, rule, count⟩ := accepts
  obtain ⟨item, member, complete, rfl, column, _, rule', goal⟩ := Table.item_of_accept wf h wanted
  cases rule.symm.trans rule'
  obtain ⟨before, word, rfl, rest, spelled, start⟩ :=
    covers.popComplete wf member complete rule count
  have ended : input = [] := by
    cases input with
    | nil => rfl
    | cons b rest => exact absurd column (known b rfl)
  have bottom : before = [] :=
    (rest.eq_nil_of_goal wf start rfl (Grammar.mem_productionsOf.2 ⟨production, rule, goal⟩)).2
  have derives := Reading.Derives.node rule spelled .nil
  rw [goal, List.append_nil] at derives
  exact ⟨ended, by rw [bottom]; exact derives⟩

theorem Covers.reaches {c d : Situation β α} {taken : List β} (covers : Covers r g c.stack taken)
    (run : Reaches t r c d) :
    ∃ taken', Covers r g d.stack taken' ∧ taken' ++ d.input = taken ++ c.input := by
  induction run with
  | refl => exact ⟨taken, covers, rfl⟩
  | tail _ step ih =>
      obtain ⟨middle, between, same⟩ := ih
      obtain ⟨taken', covers', same'⟩ := between.step wf h step
      exact ⟨taken', covers', same'.trans same⟩

end Canonical

end Situation

namespace Table

variable {t : Table} {line : Nat}

/-- Tokens none of which can be taken for the end of the input. -/
def Unmarked (t : Table) (input : List Token) : Prop :=
  ∀ token ∈ input, token.kind.name = endName → endName ∈ t.grammar.terminals

theorem Unmarked.of_ne {input : List Token} (h : ∀ token ∈ input, token.kind.name ≠ endName) :
    t.Unmarked input :=
  fun token member marked => absurd marked (h token member)

theorem sighted_of_step {c : Configuration} (unmarked : t.Unmarked c.input)
    (going : ∀ e, t.step line c ≠ .failed e) :
    t.Sighted line c.input ∧ ∀ token ∈ c.input.head?,
      (Tree.reading t.grammar line).terminal token ≠ t.grammar.terminals.length := by
  obtain ⟨stack, input⟩ := c
  cases input with
  | nil => exact ⟨rfl, by simp⟩
  | cons token rest =>
      cases index : lastIndexOf? token.kind.name t.grammar.terminals with
      | some i =>
          have inside := lastIndexOf?_lt index
          refine ⟨by simp [Sighted, inputColumn?, column?, Reading.lookahead, columnOf, Tree.reading,
            index], ?_⟩
          simp only [List.head?_cons, Option.mem_some_iff, forall_eq', Tree.reading, index,
            Option.getD_some]
          omega
      | none =>
          have outside := lastIndexOf?_eq_none_iff.1 index
          have unnamed : token.kind.name ≠ endName := by
            intro same
            exact outside (same ▸ unmarked token List.mem_cons_self same)
          refine absurd ?_ (going (errorAt line (token :: rest)))
          simp [step, inputColumn?, column?, index, unnamed]

section Canonical

variable {g : Grammar} (wf : g.WellFormed) (h : ofGrammar g = .ok t)
include wf h

theorem covers_of_runs {tokens : List Token} {c : Configuration}
    (run : t.Runs line (.start tokens) c) :
    ∃ taken, Situation.Covers (Tree.reading g line) g c.situation.stack taken ∧
      taken ++ c.input = tokens := by
  have bottom : Situation.Covers (Tree.reading g line) g
      (Configuration.start tokens).situation.stack [] := .nil
  have grammar := (ofGrammar_eq_ok h).1
  exact bottom.reaches wf h (grammar ▸ reaches_of_runs run)

/-- A tree is derived from all tokens of its line, unless one of them is taken for the end. -/
theorem derives_of_parse {line : Line} {tree : Tree} (unmarked : t.Unmarked line.tokens)
    (parsed : t.parse line = .ok tree) :
    (Tree.reading g line.number).Derives g [.nonterminal g.goal] line.tokens [tree] := by
  obtain ⟨last, run, ended⟩ := loop_eq_some_iff.1 (parse_eq_ok_iff_loop.1 parsed)
  have accepted := StepResult.outcome?_eq_ok_iff.1 ended
  obtain ⟨taken, covers, whole⟩ := covers_of_runs wf h run
  have left := Situation.input_suffix_of_reaches (reaches_of_runs run)
  obtain ⟨sighted, known⟩ := sighted_of_step
    (fun token member => unmarked token (left.subset member))
    (by simp [accepted] : ∀ e, t.step line.number last ≠ .failed e)
  obtain ⟨rfl, -⟩ := ofGrammar_eq_ok h
  obtain ⟨rest, derives⟩ := covers.accepts wf h (accepts_of_step sighted accepted) known
  have rest : last.input = [] := rest
  rw [rest, List.append_nil] at whole
  exact whole ▸ derives

end Canonical

/-- The tree of a line is a derivation from the goal whose leaves are the tokens of the line. -/
theorem parse_sound {g : Grammar} {goal : String} {rules : List Rule}
    {nonterminals terminals : List String}
    (ofRules : Grammar.ofRules goal rules nonterminals terminals = .ok g)
    (ofGrammar : Table.ofGrammar g = .ok t) (line : Line) (tree : Tree)
    (unmarked : ∀ token ∈ line.tokens, token.kind.name = endName → endName ∈ g.terminals)
    (parsed : t.parse line = .ok tree) :
    (Tree.reading g line.number).Derives g [.nonterminal g.goal] line.tokens [tree] ∧
      ((∀ token ∈ line.tokens, token.text ≠ "") →
        tree.leaves = line.tokens.map (Tree.leaf line.number)) := by
  have derives := derives_of_parse (Grammar.ofRules_wellFormed ofRules) ofGrammar
    (by rwa [Unmarked, (ofGrammar_eq_ok ofGrammar).1]) parsed
  exact ⟨derives, fun texts => by simpa [Tree.leavesOf] using derives.leavesOf texts⟩

open Grammar in
theorem parse_sound_parens : parensTable.parse parensLine = .ok parensTree ∧
    parensTree.leaves = parensLine.tokens.map (.leaf 1) := by
  have looped : parensTable.loop 1 (.start parensLine.tokens) = some (.ok parensTree) :=
    (loop_of_eq_next rfl).trans <| (loop_of_eq_next rfl).trans <| (loop_of_eq_next rfl).trans <|
      (loop_of_eq_next rfl).trans <| loop_of_eq_accepted rfl
  have parsed : parensTable.parse parensLine = .ok parensTree := parse_eq_ok_iff_loop.2 looped
  have sound := parse_sound ofRules_parens ofGrammar_parens parensLine parensTree (by decide) parsed
  exact ⟨parsed, sound.2 (by decide)⟩

end Table

end Assembler
